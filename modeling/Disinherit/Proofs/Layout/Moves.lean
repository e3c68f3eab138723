import Disinherit.Proofs.Text.Substitution

/-!
# Moved lines among other edits

When a node is rendered, the edits that it was given are put together with those that move its
lines, and one walk over all of them in order decides which are applied. This file shows that the
two lists do not disturb each other (`Script.undisturbed_render`): every line that is to be moved is
moved, and of the given edits exactly those are applied that would be applied without any lines to
move. The text is that of the node with all applied edits made at once (`Script.encode_of_render`).

A line is moved only if no other edit touches its start, and that is enough for more than being
apart: the two edits start at different places, and the earlier one ends before the other starts
(`Edit.Clears`). So the walk always reaches the start of a line that is to be moved. To the edits
after it the new cursor makes no difference, since all of them start behind both the old one and the
new one. This is the invariant of `Edit.filter_admitted`: two walks, with and without the moved
lines, stand at cursors between which no given edit starts.

No edit needs to be well formed for this. One that ends before it starts takes the walk back, but it
does so in both walks.
-/

namespace Disinherit

open Text

namespace Edit

/-! ### Leaving out edits -/

/-- Edits that are in order stay as they are. -/
theorem inOrder_eq_self {es : List Edit} (h : es.Pairwise fun a b => precedes a b = true) :
    inOrder es = es := by
  rw [inOrder_eq_insertionSort]
  exact h.insertionSort_eq

/-- Leaving out edits does not change the order of the others. -/
theorem filter_inOrder (q : Edit → Bool) (es : List Edit) :
    (inOrder es).filter q = inOrder (es.filter q) := by
  rw [inOrder_eq_insertionSort, inOrder_eq_insertionSort]
  exact filter_insertionSort q es

/-! ### Edits that clear all others -/

/-- **Edits that are in nobody's way.** A walk takes all edits of a kind if each of them is behind
the ends of all edits before it and ends before the starts of all edits after it. Of the others it
takes the same as a walk without them, if the two set out from cursors between which none of these
others starts. -/
theorem filter_admitted {p : Edit → Bool} {stop cursor cursor' : Nat} {es : List Edit}
    (hsorted : es.Pairwise fun a b => precedes a b = true)
    (hclear : es.Pairwise fun a b => p a = true ∨ p b = true → a.stop ≤ b.start)
    (hreach : ∀ a ∈ es, p a = true → cursor ≤ a.start ∧ a.stop ≤ stop)
    (hcursor : ∀ a ∈ es, p a = false → (a.start < cursor ↔ a.start < cursor')) :
    (admitted stop cursor es).filter p = es.filter p ∧
      (admitted stop cursor es).filter (!p ·) = admitted stop cursor' (es.filter (!p ·)) := by
  induction es generalizing cursor cursor' with
  | nil => exact ⟨rfl, rfl⟩
  | cons a es ih =>
    obtain ⟨hfirst, hsorted⟩ := List.pairwise_cons.1 hsorted
    obtain ⟨hafter, hclear⟩ := List.pairwise_cons.1 hclear
    have hstart : ∀ b ∈ es, a.start ≤ b.start := by
      intro b hb
      have := precedes_iff.1 (hfirst b hb)
      omega
    have hrest : ∀ b ∈ es, p b = true → cursor ≤ b.start ∧ b.stop ≤ stop :=
      fun b hb => hreach b (List.mem_cons_of_mem a hb)
    cases hp : p a with
    | true =>
      obtain ⟨hle, hstop⟩ := hreach a List.mem_cons_self hp
      -- the walk takes `a`, and whatever comes later starts behind it
      have hbehind : ∀ b ∈ es, a.stop ≤ b.start := fun b hb => hafter b hb (.inl hp)
      have hcursor : ∀ b ∈ es, p b = false → (b.start < a.stop ↔ b.start < cursor') := by
        intro b hb hpb
        have hsame := hcursor b (List.mem_cons_of_mem a hb) hpb
        have := hbehind b hb
        have := hstart b hb
        omega
      obtain ⟨hmoves, hothers⟩ :=
        ih hsorted hclear (fun b hb hpb => ⟨hbehind b hb, (hrest b hb hpb).2⟩) hcursor
      have hleft : ∀ l, (a :: l).filter (!p ·) = l.filter (!p ·) :=
        fun l => List.filter_cons_of_neg (by simp [hp])
      rw [admitted, if_neg (by omega)]
      constructor
      · rw [List.filter_cons_of_pos hp, List.filter_cons_of_pos hp, hmoves]
      · rw [hleft, hleft, hothers]
    | false =>
      have hsame := hcursor a List.mem_cons_self hp
      have hnot : ¬ p a = true := by simp [hp]
      have hkept : ∀ l, (a :: l).filter (!p ·) = a :: l.filter (!p ·) :=
        fun l => List.filter_cons_of_pos (by simp [hp])
      rw [List.filter_cons_of_neg hnot, hkept, admitted, admitted]
      by_cases hskip : a.start < cursor ∨ stop < a.stop
      · -- neither walk takes `a`, and both stay where they are
        obtain ⟨hmoves, hothers⟩ := ih hsorted hclear hrest
          fun b hb => hcursor b (List.mem_cons_of_mem a hb)
        rw [if_pos hskip, if_pos (hskip.imp_left hsame.1)]
        exact ⟨hmoves, hothers⟩
      · -- both walks take `a` and go on from its end
        have hskip' : ¬ (a.start < cursor' ∨ stop < a.stop) := mt (Or.imp_left hsame.2) hskip
        have hbehind : ∀ b ∈ es, p b = true → a.stop ≤ b.start ∧ b.stop ≤ stop := fun b hb hpb =>
          ⟨hafter b hb (.inr hpb), (hrest b hb hpb).2⟩
        have hmeet : ∀ b ∈ es, p b = false → (b.start < a.stop ↔ b.start < a.stop) :=
          fun _ _ _ => Iff.rfl
        obtain ⟨hmoves, hothers⟩ := ih hsorted hclear hbehind hmeet
        rw [if_neg hskip, if_neg hskip', List.filter_cons_of_neg hnot, hkept, hothers]
        exact ⟨hmoves, rfl⟩

/-- Edits that follow one another within a range and clear all others are applied, and they leave it
to the others which of those are. -/
theorem filter_applied_append {start stop : Nat} {edits moves : List Edit}
    (hwithin : ∀ b ∈ moves, start ≤ b.start ∧ b.stop ≤ stop)
    (hordered : moves.Pairwise fun a b => a.start < b.start ∧ a.stop ≤ b.start)
    (hclears : ∀ a ∈ edits, ∀ b ∈ moves, a.Clears b) :
    (applied start stop (edits ++ moves)).filter (· ∈ moves) = moves ∧
      (applied start stop (edits ++ moves)).filter (· ∉ moves) = applied start stop edits := by
  have hforeign : ∀ a ∈ edits, a ∉ moves := fun a ha hmem => (hclears a ha a hmem).ne rfl
  -- the two lists are what is picked from both
  have hmoves : (edits ++ moves).filter (· ∈ moves) = moves := by
    rw [List.filter_append, List.filter_eq_nil_iff.2 fun a ha => by simpa using hforeign a ha,
      List.filter_eq_self.2 fun b hb => decide_eq_true hb, List.nil_append]
  have hedits : (edits ++ moves).filter (fun e => !decide (e ∈ moves)) = edits := by
    rw [List.filter_append, List.filter_eq_self.2 fun a ha => by simpa using hforeign a ha,
      List.filter_eq_nil_iff.2 fun b hb => by simpa using hb, List.append_nil]
  -- all pairs with a move in them are clear, in whichever order they come
  have hpairs : (edits ++ moves).Pairwise fun a b => a ∈ moves ∨ b ∈ moves → a.Clears b := by
    refine List.pairwise_append.2 ⟨List.pairwise_of_forall_mem_list ?_, ?_, ?_⟩
    · rintro a ha b hb (hmem | hmem)
      · exact absurd hmem (hforeign a ha)
      · exact absurd hmem (hforeign b hb)
    · exact hordered.imp fun h _ => .inl h
    · exact fun a ha b hb _ => hclears a ha b hb
  have hsorted := pairwise_inOrder (edits ++ moves)
  have hclear : (inOrder (edits ++ moves)).Pairwise fun a b =>
      decide (a ∈ moves) = true ∨ decide (b ∈ moves) = true → a.stop ≤ b.start := by
    have hinOrder := ((perm_inOrder (edits ++ moves)).pairwise_iff fun {a b} h hmem =>
      (h hmem.symm).symm).2 hpairs
    refine (hinOrder.and hsorted).imp fun {a b} h hmem => ?_
    rw [decide_eq_true_iff, decide_eq_true_iff] at hmem
    exact (h.1 hmem).stop_le (precedes_iff.1 h.2)
  have hreach : ∀ b ∈ inOrder (edits ++ moves), decide (b ∈ moves) = true →
      start ≤ b.start ∧ b.stop ≤ stop := fun b _ hb => hwithin b (of_decide_eq_true hb)
  -- both walks set out from the same place
  have hcursor : ∀ b ∈ inOrder (edits ++ moves), decide (b ∈ moves) = false →
      (b.start < start ↔ b.start < start) := fun _ _ _ => Iff.rfl
  obtain ⟨htaken, hothers⟩ := filter_admitted hsorted hclear hreach hcursor
  rw [filter_inOrder, hmoves,
    inOrder_eq_self (hordered.imp fun h => precedes_iff.2 (.inl h.1))] at htaken
  rw [filter_inOrder, hedits] at hothers
  refine ⟨htaken, Eq.trans ?_ hothers⟩
  exact List.filter_congr fun e _ => decide_not

end Edit

/-! ### The edit of a line -/

namespace Source

variable {s : Source}

theorem start_lineEdit (column stop : Nat) (indent : String) (lineBegin : Nat) :
    (s.lineEdit column stop indent lineBegin).start = lineBegin := by
  unfold lineEdit
  dsimp only
  split
  · rfl
  · rfl

theorem start_le_stop_lineEdit (column stop : Nat) (indent : String) (lineBegin : Nat) :
    (s.lineEdit column stop indent lineBegin).start
      ≤ (s.lineEdit column stop indent lineBegin).stop := by
  unfold lineEdit
  dsimp only
  split
  · exact Nat.le_add_right _ _
  · exact Nat.le_min.2 ⟨Nat.le_add_right _ _, Nat.le_add_right _ _⟩

/-- At most the blanks that begin the line are replaced. -/
theorem stop_lineEdit_le (column stop : Nat) (indent : String) (lineBegin : Nat) :
    (s.lineEdit column stop indent lineBegin).stop ≤ lineBegin + s.indentWidth lineBegin stop := by
  unfold lineEdit
  dsimp only
  split
  · exact Nat.le_refl _
  · exact Nat.min_le_left _ _

/-- The blanks that begin a line do not go beyond the end of the node. -/
theorem indentWidth_le (lineBegin stop : Nat) :
    s.indentWidth lineBegin stop ≤ stop - lineBegin := by
  have hblanks := (List.takeWhile_prefix (l := s.range lineBegin stop) Text.isIndentByte).length_le
  have hrange := List.length_take_le (stop - lineBegin) (s.bytes.drop lineBegin)
  exact Nat.le_trans hblanks hrange

/-- Nor do they go beyond a byte that is no blank. -/
theorem add_indentWidth_le {lineBegin offset : Nat} {b : UInt8} (stop : Nat)
    (hle : lineBegin ≤ offset) (hbyte : s.bytes[offset]? = some b)
    (hb : Text.isIndentByte b = false) : lineBegin + s.indentWidth lineBegin stop ≤ offset := by
  by_contra hlt
  have hwidth : offset - lineBegin < s.indentWidth lineBegin stop := by omega
  -- the byte at `offset` would be one of the blanks
  obtain ⟨b', hb', hindent⟩ := exists_getElem?_of_lt_takeWhile hwidth
  have hbyte' := getElem?_of_getElem?_range hb'
  rw [Nat.add_sub_cancel' hle, hbyte] at hbyte'
  obtain rfl := Option.some.inj hbyte'
  rw [hb] at hindent
  cases hindent

end Source

namespace Script

variable {s : Script} {n : Node}

/-- The lines of a node after its first one begin one after the other, each behind a line feed of
the node. -/
theorem pairwise_startsOfLines (s : Script) (n : Node) : (s.startsOfLines n).Pairwise fun a b =>
    n.start ≤ a ∧ a < b ∧ b ≤ n.stop ∧ s.source.bytes[b - 1]? = some Text.lineFeed := by
  refine List.pairwise_map.2 ((s.source.pairwise_lineFeeds n.start n.stop).imp_of_mem ?_)
  intro a b ha hb hlt
  obtain ⟨hstart, -, -⟩ := Source.mem_lineFeeds.1 ha
  obtain ⟨-, hstop, hfeed⟩ := Source.mem_lineFeeds.1 hb
  exact ⟨by omega, by omega, by omega, hfeed⟩

/-- The edits that move lines follow one another. -/
theorem pairwise_shiftEdits (s : Script) (n : Node) (edits : List Edit) (indent : String) :
    (s.shiftEdits n edits indent).Pairwise fun a b => a.start < b.start ∧ a.stop ≤ b.start := by
  refine List.Pairwise.filter _ (List.pairwise_map.2 (List.Pairwise.filter _ ?_))
  refine (s.pairwise_startsOfLines n).imp fun {a b} ⟨_, hlt, _, hfeed⟩ => ?_
  have hstop := s.source.stop_lineEdit_le (s.source.column n.start) n.stop indent a
  -- the blanks of a line end before the line feed, which comes before the next line
  have hblanks := Source.add_indentWidth_le n.stop (show a ≤ b - 1 by omega) hfeed (by decide)
  rw [Source.start_lineEdit, Source.start_lineEdit]
  exact ⟨hlt, by omega⟩

theorem within_of_mem_shiftEdits {edits : List Edit} {indent : String} {e : Edit}
    (he : e ∈ s.shiftEdits n edits indent) : n.start ≤ e.start ∧ e.stop ≤ n.stop := by
  obtain ⟨lineBegin, hbegin, rfl⟩ := List.mem_map.1 (List.mem_filter.1 he).1
  obtain ⟨feed, hfeed, rfl⟩ := List.mem_map.1 (List.mem_filter.1 hbegin).1
  obtain ⟨hstart, hstop, -⟩ := Source.mem_lineFeeds.1 hfeed
  have hedit := s.source.stop_lineEdit_le (s.source.column n.start) n.stop indent (feed + 1)
  have hblanks := s.source.indentWidth_le (feed + 1) n.stop
  rw [Source.start_lineEdit]
  exact ⟨by omega, by omega⟩

theorem start_le_stop_of_mem_shiftEdits {edits : List Edit} {indent : String} {e : Edit}
    (he : e ∈ s.shiftEdits n edits indent) : e.start ≤ e.stop := by
  obtain ⟨lineBegin, -, rfl⟩ := List.mem_map.1 (List.mem_filter.1 he).1
  exact Source.start_le_stop_lineEdit _ _ _ _

/-! ### Rendered nodes -/

/-- A node is rendered by making at once all the edits that are applied. -/
theorem encode_of_render {edits : List Edit} {indent text : String}
    (hedits : ∀ e ∈ edits, e.start ≤ e.stop) (h : s.render n edits indent = .ok text) :
    encode text = s.source.substituted n.start n.stop (s.appliedEdits n edits indent) := by
  refine encode_of_withEdits (fun e he => ?_) h
  rcases List.mem_append.1 he with he | he
  · exact hedits e he
  · exact start_le_stop_of_mem_shiftEdits he

/-- Lines are moved and edits are made without disturbing each other. -/
structure Undisturbed (s : Script) (n : Node) (edits : List Edit) (indent : String) : Prop where
  /-- The text is that of the node with certain edits applied. -/
  rendered : s.render n edits indent = s.woven n (s.appliedEdits n edits indent)
  /-- All of them are made at once, if no edit ends before it starts. -/
  substituted : (∀ e ∈ edits, e.start ≤ e.stop) → ∀ text, s.render n edits indent = .ok text →
    encode text = s.source.substituted n.start n.stop (s.appliedEdits n edits indent)
  /-- Every edit that moves a line is among them. -/
  moved : ∀ e ∈ s.shiftEdits n edits indent, e ∈ s.appliedEdits n edits indent
  /-- Any other edit is among them just if it is applied in a text whose lines stay. -/
  kept : ∀ e ∈ edits, e ∈ s.appliedEdits n edits indent ↔ e ∈ Edit.applied n.start n.stop edits
  /-- The edits that move lines are applied in their order and no more often than they are
  listed. -/
  moves : (s.appliedEdits n edits indent).filter (· ∈ s.shiftEdits n edits indent)
    = s.shiftEdits n edits indent
  /-- So are the others, and nothing else is applied. -/
  others : (s.appliedEdits n edits indent).filter (· ∉ s.shiftEdits n edits indent)
    = Edit.applied n.start n.stop edits

/-- **Moving the lines of a node and editing it do not disturb each other**, whatever the edits
are. -/
theorem undisturbed_render (s : Script) (n : Node) (edits : List Edit) (indent : String) :
    Undisturbed s n edits indent := by
  have hclears : ∀ a ∈ edits, ∀ b ∈ s.shiftEdits n edits indent, a.Clears b :=
    fun a ha b hb => clears_of_mem_shiftEdits ha hb
  have hwithin : ∀ b ∈ s.shiftEdits n edits indent, n.start ≤ b.start ∧ b.stop ≤ n.stop :=
    fun b hb => within_of_mem_shiftEdits hb
  obtain ⟨hmoves, hothers⟩ :=
    Edit.filter_applied_append hwithin (s.pairwise_shiftEdits n edits indent) hclears
  constructor
  case rendered => exact s.render_eq_woven n edits indent
  case substituted => exact fun hedits text htext => encode_of_render hedits htext
  case moved =>
    intro e he
    rw [← hmoves] at he
    exact (List.mem_filter.1 he).1
  case kept =>
    intro e he
    -- an edit that was given is none of those that move lines
    have hforeign : e ∉ s.shiftEdits n edits indent := fun hmem => (hclears e he e hmem).ne rfl
    rw [← hothers, List.mem_filter]
    exact ⟨fun hmem => ⟨hmem, decide_eq_true hforeign⟩, And.left⟩
  case moves => exact hmoves
  case others => exact hothers

end Script

end Disinherit
