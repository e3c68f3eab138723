import Disinherit.Proofs.Compile.Failure
import Disinherit.Proofs.Text.Weaving
import Mathlib.Data.List.Forall2

/-!
# Text outside of classes

A script is written out with another text in place of each class, and everything else stays.
`Replaced` says what that means without speaking of offsets into the result: source and result are
cut into pieces at the same places, the pieces between the classes are equal, and for each class
there is the old statement on one side and the new text on the other.

The classes are replaced one after the other, from the end of the one before. So the result is as it
should be if the statements follow each other in the source (`Script.StatementsInOrder`). It has one
text for each class that has a name, in the order of the source (`Script.Places`): the flattened
class, or nothing if the class is left out.
-/

namespace Disinherit

open Text

/-! ### Ranges that are replaced -/

/-- From `offset` on there are the given bytes. With a text in place of each of the spans, and all
that is not in a span kept as it is, they read `out`. -/
inductive Replaced : Nat → List (Nat × Nat) → List String → List UInt8 → String → Prop where
  | rest {offset : Nat} (kept : String) : Replaced offset [] [] (encode kept) kept
  | span {offset start stop : Nat} {spans : List (Nat × Nat)} {texts : List String}
    {rest : List UInt8}
      {out : String} (kept text : String) (old : List UInt8) :
    start = offset + (encode kept).length → stop = start + old.length →
    Replaced stop spans texts rest out →
    Replaced offset ((start, stop) :: spans) (text :: texts) (encode kept ++ old ++ rest)
      (kept ++ text ++ out)

namespace Source

variable {s : Source} {cursor start stop : Nat}

/-- What comes after an offset, up to a span, in the span, and after it. -/
theorem drop_eq_ranges (hstart : cursor ≤ start) (hstop : start ≤ stop) :
    s.bytes.drop cursor = s.range cursor start ++ s.range start stop ++ s.bytes.drop stop := by
  have hcut : ∀ {a b}, a ≤ b → s.bytes.drop a = s.range a b ++ s.bytes.drop b := by
    intro a b hab
    rw [range, ← Nat.add_sub_cancel' hab, ← List.drop_drop, Nat.add_sub_cancel_left,
      List.take_append_drop]
  rw [List.append_assoc, ← hcut hstop, ← hcut hstart]

theorem range_size (s : Source) (start : Nat) : s.range start s.size = s.bytes.drop start :=
  List.take_of_length_le (Nat.le_of_eq List.length_drop)

/-- A span of the source is replaced, and what comes before it is kept. -/
theorem replaced_cons_iff (hstart : cursor ≤ start) (hle : start ≤ stop) (hstop : stop ≤ s.size)
    {spans : List (Nat × Nat)} {text : String} {texts : List String} {out : String} :
    Replaced cursor ((start, stop) :: spans) (text :: texts) (s.bytes.drop cursor) out ↔
      ∃ kept out', encode kept = s.range cursor start ∧
        Replaced stop spans texts (s.bytes.drop stop) out' ∧ out = kept ++ text ++ out' := by
  have hbefore : (s.range cursor start).length = start - cursor :=
    length_range (Nat.le_trans hle hstop)
  have hspan : (s.range start stop).length = stop - start := length_range hstop
  constructor
  · intro h
    generalize hbytes : s.bytes.drop cursor = bytes at h
    cases h with
    | @span _ _ _ _ _ rest out' kept _ old hkept hold hrest =>
      -- pieces of the same length at the same place are equal
      rw [drop_eq_ranges hstart hle] at hbytes
      obtain ⟨hpieces, hafter⟩ := List.append_inj hbytes (by
        rw [List.length_append, List.length_append]
        omega)
      obtain ⟨hfirst, -⟩ := List.append_inj hpieces (by omega)
      rw [hafter]
      exact ⟨kept, out', hfirst.symm, hrest, rfl⟩
  · rintro ⟨kept, out', hkept, hrest, rfl⟩
    -- the bytes from the cursor on are what is kept, the span and the rest
    rw [drop_eq_ranges hstart hle, ← hkept]
    rw [← hkept] at hbefore
    exact .span kept text _ (by omega) (by omega) hrest

end Source

/-! ### Statements that are replaced -/

/-- The bytes of the statement of a class. -/
def ClassDecl.span (d : ClassDecl) : Nat × Nat :=
  (d.statement.start, d.statement.stop)

/-- The statement declares a class that has a name. -/
def Node.namesClass (stmt : Node) : Bool :=
  (stmt.declaredClass?.bind (·.child? .name)).isSome

namespace Script

/-- The top-level statements follow each other in the source. -/
structure StatementsInOrder (s : Script) : Prop where
  ordered : s.root.namedChildren.Pairwise fun a b => a.stop ≤ b.start
  within : ∀ stmt ∈ s.root.namedChildren, stmt.start ≤ stmt.stop ∧ stmt.stop ≤ s.source.size

/-- The text that stands for a class: the flattened class, or nothing if the class is left out. -/
def StandsFor (s : Script) (r : Registry) (o : Options) (d : ClassDecl) (text : String) : Prop :=
  (r.keeps o d = true ∧ ∃ flat, s.flatten r o d = .ok flat ∧ flat.text = text) ∨
    (r.keeps o d = false ∧ text = "")

variable {s : Script} {r : Registry} {o : Options}

theorem encode_eq_range_iff {start stop : Nat} {text : String} :
    encode text = s.source.range start stop ↔ s.slice start stop = .ok text := by
  rw [slice_eq_ok_iff, Source.slice?, decode?_eq_some_iff]

theorem standsFor_iff {d : ClassDecl} {text : String} :
    s.StandsFor r o d text ↔ ∃ placed, s.replacement r o d = .ok placed ∧ placed.text = text := by
  unfold StandsFor replacement
  cases r.keeps o d with
  | true => simp
  | false => simp [eq_comm]

/-- A step of the replacement: the text before the statement, what stands for the class, and the
rest. -/
theorem replaceFrom_cons_iff {cursor : Nat} {d : ClassDecl} {ds : List ClassDecl} {code : String} :
    (∃ e, s.replaceFrom r o cursor (d :: ds) = .ok e ∧ e.text = code) ↔
      ∃ kept text out, s.slice cursor d.statement.start = .ok kept ∧ s.StandsFor r o d text ∧
        (∃ e, s.replaceFrom r o d.statement.stop ds = .ok e ∧ e.text = out) ∧
          code = kept ++ text ++ out := by
  constructor
  · rintro ⟨e, he, rfl⟩
    obtain ⟨kept, hkept, he⟩ := Attempt.bind_eq_ok.1 he
    obtain ⟨placed, hplaced, he⟩ := Attempt.bind_eq_ok.1 he
    obtain ⟨rest, hrest, he⟩ := Attempt.bind_eq_ok.1 he
    obtain rfl := Attempt.pure_eq_ok.1 he
    have htext := standsFor_iff.2 ⟨placed, hplaced, rfl⟩
    exact ⟨kept, placed.text, rest.text, hkept, htext, ⟨rest, hrest, rfl⟩, rfl⟩
  · rintro ⟨kept, text, out, hkept, htext, ⟨rest, hrest, rfl⟩, rfl⟩
    obtain ⟨placed, hplaced, rfl⟩ := standsFor_iff.1 htext
    rw [replaceFrom, hkept, hplaced, hrest]
    exact ⟨_, rfl, rfl⟩

/-- The replacement from an offset on, where the statements follow that offset and each other. -/
theorem replaceFrom_iff {cursor : Nat} {ds : List ClassDecl}
    (hordered : ds.Pairwise fun a b => a.statement.stop ≤ b.statement.start)
    (hwithin : ∀ d ∈ ds, cursor ≤ d.statement.start ∧ d.statement.start ≤ d.statement.stop ∧
      d.statement.stop ≤ s.source.size) (code : String) :
    (∃ e, s.replaceFrom r o cursor ds = .ok e ∧ e.text = code) ↔
      ∃ texts, List.Forall₂ (s.StandsFor r o) ds texts ∧
        Replaced cursor (ds.map ClassDecl.span) texts (s.source.bytes.drop cursor) code := by
  induction ds generalizing cursor code with
  | nil =>
    -- behind the last class the source is kept, byte by byte
    constructor
    · rintro ⟨e, he, rfl⟩
      obtain ⟨rest, hrest, he⟩ := Attempt.bind_eq_ok.1 he
      obtain rfl := Attempt.pure_eq_ok.1 he
      refine ⟨[], .nil, ?_⟩
      rw [← Source.range_size, ← encode_eq_range_iff.2 hrest]
      exact .rest rest
    · rintro ⟨texts, hall, hreplaced⟩
      cases hall
      generalize hbytes : s.source.bytes.drop cursor = bytes at hreplaced
      cases hreplaced
      rw [← Source.range_size] at hbytes
      rw [replaceFrom, encode_eq_range_iff.1 hbytes.symm]
      exact ⟨_, rfl, rfl⟩
  | cons d ds ih =>
    obtain ⟨hafter, hordered⟩ := List.pairwise_cons.1 hordered
    obtain ⟨hstart, hle, hstop⟩ := hwithin d List.mem_cons_self
    -- behind `d` the same holds, with the end of its statement as the new cursor
    have hstep := ih hordered fun d' hd' =>
      ⟨hafter d' hd', (hwithin d' (List.mem_cons_of_mem d hd')).2⟩
    -- so one step of the writer is set against one span that is replaced
    rw [replaceFrom_cons_iff]
    constructor
    · rintro ⟨kept, text, out, hkept, htext, hout, rfl⟩
      obtain ⟨texts, hall, hreplaced⟩ := (hstep out).1 hout
      refine ⟨text :: texts, .cons htext hall, (Source.replaced_cons_iff hstart hle hstop).2 ?_⟩
      exact ⟨kept, out, encode_eq_range_iff.2 hkept, hreplaced, rfl⟩
    · rintro ⟨texts, hall, hreplaced⟩
      cases hall with
      | @cons _ text _ texts htext hall =>
        obtain ⟨kept, out, hkept, hrest, rfl⟩ :=
          (Source.replaced_cons_iff hstart hle hstop).1 hreplaced
        exact ⟨kept, text, out, encode_eq_range_iff.1 hkept, htext,
          (hstep out).2 ⟨texts, hall, hrest⟩, rfl⟩

/-- Every statement with a class that has a name is registered once, in the order of the text. -/
theorem statements_registerAll (stmts : List Node) :
    ∀ {r r' : Registry}, s.registerAll r stmts = .ok r' →
    r'.classes.map (·.statement) = r.classes.map (·.statement) ++ stmts.filter Node.namesClass := by
  induction stmts with
  | nil =>
    intro r r' h
    obtain rfl := Except.ok.inj h
    exact (List.append_nil _).symm
  | cons stmt stmts ih =>
    intro r r' h
    cases hnode : stmt.declaredClass?.bind (·.child? .name) with
    | none =>
      -- the statement registers nothing, and it is not among those that name a class
      have hnot : ¬ stmt.namesClass = true := by
        rw [Node.namesClass, hnode]
        exact Bool.false_ne_true
      rw [registerAll_of_unnamed hnode] at h
      rw [ih h, List.filter_cons_of_neg hnot]
    | some nameNode =>
      have hnames : stmt.namesClass = true := by rw [Node.namesClass, hnode]; rfl
      obtain ⟨cls, hcls, hchild⟩ := Option.bind_eq_some_iff.1 hnode
      -- the run goes on only if the class is new, and then its statement comes next
      rw [registerAll, hcls] at h
      dsimp only at h
      rw [hchild] at h
      obtain ⟨name, -, h⟩ := Attempt.bind_eq_ok.1 h
      split at h
      · cases h
      · obtain ⟨clause, -, h⟩ := Attempt.bind_eq_ok.1 h
        obtain ⟨members, -, h⟩ := Attempt.bind_eq_ok.1 h
        rw [ih h, Registry.declare, List.map_append, List.append_assoc,
          List.filter_cons_of_pos hnames]
        rfl

/-- A script is written out in place. -/
structure Places (s : Script) (r : Registry) (o : Options) : Prop where
  /-- The classes are those of all statements with a named class, in the order of the text. -/
  statements : r.classes.map (·.statement) = s.root.namedChildren.filter Node.namesClass
  /-- What is written is the source with the statement of each class replaced. -/
  replaced : ∀ code, (∃ e, s.emit r o = .ok e ∧ e.text = code) ↔
    ∃ texts, List.Forall₂ (s.StandsFor r o) r.classes texts ∧
      Replaced 0 (r.classes.map ClassDecl.span) texts s.source.bytes code
  /-- There is a result, unless the tree cuts characters. -/
  written : s.root.OnBoundaries s.source → ∃ e, s.emit r o = .ok e

/-- **Text outside of classes is kept**, byte for byte, and each class is written in its place, for
all options. -/
theorem places_emit (hr : s.registry = .ok r) (hstmts : s.StatementsInOrder) (o : Options) :
    s.Places r o := by
  have hsub := statements_sublist hr
  constructor
  case statements =>
    rw [statements_registerAll _ hr]
    rfl
  case replaced =>
    intro code
    refine replaceFrom_iff (List.pairwise_map.1 (hstmts.ordered.sublist hsub)) (fun d hd => ?_) code
    exact ⟨Nat.zero_le _, hstmts.within _ (hsub.mem (List.mem_map_of_mem hd))⟩
  case written => exact fun hroot => succeeds_emit hr hroot o

end Script

/-- Of the two classes `A` is left out and `B` written in its place, and the comments around them
are kept. -/
theorem places_emit_wideText : ∃ r, (Script.mk (.ofText wideText) wideTree).registry = .ok r ∧
    (Script.mk (.ofText wideText) wideTree).StatementsInOrder ∧
    r.classes.map (fun d => (d.name, d.span, r.keeps {} d))
      = [("A", (6, 15), false), ("B", (21, 73), true)] ∧
    ((Script.mk (.ofText wideText) wideTree).emit r {}).toOption.map (·.text) = some wideResult ∧
    (Script.mk (.ofText wideText) wideTree).Places r {} := by
  obtain ⟨r, hr, htest⟩ := Script.exists_registry (s := ⟨.ofText wideText, wideTree⟩)
    (p := fun r => r.classes.map (fun d => (d.name, d.span, r.keeps {} d))
        == [("A", (6, 15), false), ("B", (21, 73), true)]
      && ((Script.mk (.ofText wideText) wideTree).emit r {}).toOption.map (·.text)
        == some wideResult)
    (by decide +kernel)
  obtain ⟨hclasses, htext⟩ := Bool.and_eq_true_iff.1 htest
  have hstmts : (Script.mk (.ofText wideText) wideTree).StatementsInOrder :=
    ⟨by decide +kernel, by decide +kernel⟩
  exact ⟨r, hr, hstmts, beq_iff_eq.1 hclasses, beq_iff_eq.1 htext, Script.places_emit hr hstmts {}⟩

end Disinherit
