import Disinherit.Proofs.Text.Lines
import Disinherit.Proofs.Tree.Nesting

/-!
# How a tree is spelled

Offsets alone do not say where a node begins to be visible. `Node.Spelled` gathers what the grammar
says about the text at the nodes that matter for super references: keyword, reference and statement
neither begin nor end with a blank, and around a statement in the body of a method something else of
the method shows, if only the braces. It also says that a reference which names its member holds no
other, and that a statement begins with its constructor call.
-/

namespace Disinherit

namespace Source

/-- The text of a node begins and ends with bytes that show. -/
structure Shows (s : Source) (n : Node) : Prop where
  pos : n.start < n.stop
  first : s.ShowsAt n.start
  last : s.ShowsAt (n.stop - 1)

instance (s : Source) (n : Node) : Decidable (s.Shows n) :=
  decidable_of_iff (n.start < n.stop ∧ s.ShowsAt n.start ∧ s.ShowsAt (n.stop - 1))
    ⟨fun ⟨hpos, hfirst, hlast⟩ => ⟨hpos, hfirst, hlast⟩, fun h => ⟨h.pos, h.first, h.last⟩⟩

theorem Shows.stop_le_size {s : Source} {n : Node} (h : s.Shows n) : n.stop ≤ s.size := by
  have := h.last.lt_size
  omega

/-- Something shows between two offsets. -/
def ShowsBetween (s : Source) (start stop : Nat) : Prop :=
  ∃ offset, start ≤ offset ∧ offset < stop ∧ s.ShowsAt offset

instance (s : Source) (start stop : Nat) : Decidable (s.ShowsBetween start stop) :=
  decidable_of_iff (∃ offset ∈ List.range' start (stop - start), s.ShowsAt offset) <| by
    refine exists_congr fun offset => ?_
    rw [List.mem_range'_1, and_assoc]
    exact and_congr_right fun hstart => and_congr_left fun _ => by omega

end Source

namespace Node

/-- A reference whose text gives the name of the member: `super.x` or `super['x']`. -/
def namesMember (n : Node) : Bool :=
  n.isSuperMember && (n.kind == .memberExpression
    || (n.child? .index).any (·.kind == .stringLiteral))

/-- Only the statements of a function body can stand within the node. -/
def enclosesBodies (n : Node) : Bool :=
  n.kind == .methodDefinition || n.kind == .expressionStatement || n.isSuperCall

/-- A node is spelled as the grammar has it. -/
structure Spelled (s : Source) (n : Node) : Prop where
  shows : n.kind = .superKeyword ∨ n.isSuperReference = true ∨ n.kind = .expressionStatement →
    s.Shows n
  /-- The name of a method shows. -/
  name : n.kind = .methodDefinition → ∀ c ∈ n.child? .name, s.Shows c
  /-- A statement in the body of a function has something on both sides of it, such as the
  braces. -/
  body : n.enclosesBodies = true → ∀ c ∈ n.children, ∀ stmt ∈ c.preorder,
    stmt.kind = .expressionStatement →
      s.ShowsBetween n.start stmt.start ∧ s.ShowsBetween stmt.stop n.stop
  /-- The keyword has no parts. -/
  keyword : n.kind = .superKeyword → n.children = []
  /-- There is no other reference in the name of a member. -/
  named : n.namesMember = true → ∀ c ∈ n.children, ∀ m ∈ c.preorder, m.isSuperReference = false
  /-- A statement begins with its constructor call. -/
  leads : n.kind = .expressionStatement → ∀ c ∈ n.children, c.isSuperCall = true → n.start = c.start

instance (s : Source) (n : Node) : Decidable (n.Spelled s) :=
  decidable_of_iff
    ((n.kind = .superKeyword ∨ n.isSuperReference = true ∨ n.kind = .expressionStatement →
      s.Shows n) ∧
      (n.kind = .methodDefinition → ∀ c ∈ n.child? .name, s.Shows c) ∧
      (n.enclosesBodies = true → ∀ c ∈ n.children, ∀ stmt ∈ c.preorder,
        stmt.kind = .expressionStatement →
          s.ShowsBetween n.start stmt.start ∧ s.ShowsBetween stmt.stop n.stop) ∧
      (n.kind = .superKeyword → n.children = []) ∧
      (n.namesMember = true → ∀ c ∈ n.children, ∀ m ∈ c.preorder, m.isSuperReference = false) ∧
      (n.kind = .expressionStatement → ∀ c ∈ n.children, c.isSuperCall = true → n.start = c.start))
    ⟨fun ⟨hs, hn, hb, hk, hm, hl⟩ => ⟨hs, hn, hb, hk, hm, hl⟩,
      fun h => ⟨h.shows, h.name, h.body, h.keyword, h.named, h.leads⟩⟩

/-- A node of the tree spans its children well, and it is spelled as the grammar has it. -/
structure WellSpelled (s : Source) (n : Node) : Prop where
  wellSpanned : n.WellSpanned
  spelled : ∀ m ∈ n.preorder, m.Spelled s

theorem WellSpelled.of_mem_preorder {s : Source} {m n : Node} (h : n.WellSpelled s)
    (hm : m ∈ n.preorder) : m.WellSpelled s :=
  ⟨h.wellSpanned.of_mem_preorder hm, fun k hk => h.spelled k (mem_preorder_trans hk hm)⟩

/-! ### The keyword of a call -/

theorem isSuperCall_of_kind {n : Node} (h : n.isSuperReference = true)
    (hk : n.kind = .callExpression) : n.isSuperCall = true := by
  rcases Bool.or_eq_true_iff.1 h with hmember | hcall
  · simp [isSuperMember, hk] at hmember
  · exact hcall

/-- A call begins with its keyword. -/
theorem WellSpelled.callee {s : Source} {n k : Node} (h : n.WellSpelled s)
    (hn : n.isSuperCall = true) (hk : n.child? .function = some k) :
    k.start = n.start ∧ k.stop ≤ n.stop ∧ s.Shows k ∧ k.children = [] := by
  have hkind : k.kind = .superKeyword := by
    have hsuper := (Bool.and_eq_true_iff.1 hn).2
    simpa [hasSuper, hk] using hsuper
  have hchild := (child?_mem hk).1
  have hspelled := h.spelled k (mem_preorder_of_mem_children hchild)
  exact ⟨(h.wellSpanned.spansWell.call hn k hk).1, (h.wellSpanned.spansWell.within k hchild).2.2,
    hspelled.shows (.inl hkind), hspelled.keyword hkind⟩

end Node

end Disinherit
