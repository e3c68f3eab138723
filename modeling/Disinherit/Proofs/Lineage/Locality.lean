import Disinherit.Flatten
import Disinherit.Proofs.Lineage.Override
import Disinherit.Proofs.Lineage.Reach

/-!
# Classes outside the ancestry

A flattened class is made of what its ancestors declare. Its siblings, the classes that extend it
and all the others of a registry have no part in it, however they are named and whatever they
declare.

This is a statement about two registries. They agree along the parents of a class
(`Registry.AgreesAlong`) if they give the same class, or both none, for every name to which the
parents lead. Under this assumption the two walks take the same steps: `ancestryFrom_congr` follows
the first of them, and where it goes on to a parent the registries agree along the parents of that
one as well (`AgreesAlong.parent`). From equal lists of ancestors on, nothing is looked up any more
but the first class of the chain, which is on the walk (`roots_chain`).

The assumption is not stronger than it has to be. A lineage tells the classes that it was made of,
and also the name at which it ended for want of a class, so that equal lineages come from registries
that agree (`agreesAlong_iff_lineage_eq`).
-/

namespace Disinherit

namespace Registry

variable {r r' : Registry} {name x p : String}

/-- The registries have the same class, or none, for every name to which the parents of `name`
lead. -/
def AgreesAlong (r r' : Registry) (name : String) : Prop :=
  ∀ x, r.Reaches name x → r.get? x = r'.get? x

/-- The chain begins with a class of the registry that extends nothing. -/
def roots (r : Registry) (chain : List String) : Bool :=
  (chain.head?.bind r.get?).any (·.extendsText.isNone)

/-- Nothing that is made of a class tells the registries apart. -/
structure FlattensAlike (s : Script) (r r' : Registry) (name : String) : Prop where
  lineage : r.lineage name = r'.lineage name
  /-- Both registries say the same about the base of the chain. -/
  rooted : (r.lineage name).hasRoot = r.roots (r.lineage name).chain ∧
    (r.lineage name).hasRoot = r'.roots (r.lineage name).chain
  /-- Members, edits, copies and diagnostics are the same. -/
  resolution : s.resolve (r.lineage name) = s.resolve (r'.lineage name)
  /-- The same text is written, with the same diagnostics, or the same failure is met. -/
  flattened : ∀ (o : Options) (d : ClassDecl), d.name = name → s.flatten r o d = s.flatten r' o d

/-! ### Two walks side by side -/

namespace AgreesAlong

theorem get?_eq (h : r.AgreesAlong r' name) : r.get? name = r'.get? name :=
  h name .refl

/-- Registries that agree along the parents of a class agree along those of its parent. -/
theorem parent (h : r.AgreesAlong r' name) (hp : r.Extends name p) : r.AgreesAlong r' p := by
  intro x hx
  exact h x (Relation.ReflTransGen.head hp hx)

end AgreesAlong

/-- **The walks take the same steps**, whatever they have seen before. -/
theorem ancestryFrom_congr (h : r.AgreesAlong r' name) (seen : List String) :
    r.ancestryFrom seen name = r'.ancestryFrom seen name := by
  -- along the first walk; the second has to do at each name what the first does
  fun_induction r.ancestryFrom seen name with
  | case1 seen name hmet => exact (ancestryFrom_of_mem hmet).symm
  | case2 seen name hnew hget =>
    have hget' : r'.get? name = none := h.get?_eq ▸ hget
    exact (ancestryFrom_of_unknown hget').symm
  | case3 seen name hnew d hget hparent =>
    have hget' : r'.get? name = some d := h.get?_eq ▸ hget
    rw [ancestryFrom_of_get? hnew hget', hparent]
    rfl
  | case4 seen name hnew d hget p hparent _ ih =>
    have hget' : r'.get? name = some d := h.get?_eq ▸ hget
    have hstep : r.Extends name p := extends_iff.2 ⟨d, hget, hparent⟩
    rw [ancestryFrom_of_get? hnew hget', hparent, ih (h.parent hstep)]
    rfl

theorem lineage_congr (h : r.AgreesAlong r' name) : r.lineage name = r'.lineage name := by
  have hancestry : r.ancestry name = r'.ancestry name := ancestryFrom_congr h []
  rw [lineage, lineage, hancestry]

/-- What a lineage says about its base is what an agreeing registry says about it. -/
theorem roots_chain (h : r.AgreesAlong r' name) :
    (r.lineage name).hasRoot = r'.roots (r.lineage name).chain := by
  have hchain : (r.lineage name).chain.head? = (r.ancestry name).head?.map (·.name) :=
    List.head?_map
  rw [roots, hchain]
  cases hbase : (r.ancestry name).head? with
  | none =>
    show Lineage.hasRoot _ = false
    rw [Lineage.hasRoot, show (r.lineage name).ancestry.head? = none from hbase]
  | some base =>
    -- the base is a class of the chain, and so both registries know it
    have hmem : base ∈ r.ancestry name := List.mem_of_head? hbase
    have hreach : r.Reaches name base.name := reaches_of_mem_chain (List.mem_map_of_mem hmem)
    have hget : r'.get? base.name = some base :=
      (h base.name hreach).symm.trans (get?_of_mem_ancestry hmem)
    rw [Lineage.hasRoot, show (r.lineage name).ancestry.head? = some base from hbase,
      Option.map_some, Option.bind_some, hget]
    rfl

/-! ### What a lineage gives away -/

/-- A class that the walk comes to is the same in every registry with that lineage. -/
theorem get?_of_lineage_eq {d : ClassDecl} (heq : r.lineage name = r'.lineage name)
    (hx : r.Reaches name x) (hd : r.get? x = some d) : r'.get? x = some d := by
  have hmem : x ∈ (r.lineage name).chain := by
    refine mem_chain_iff.2 ⟨hx, ?_⟩
    rw [hd]
    exact Option.some_ne_none d
  -- the class is on the chain, and the chain has the same class in both registries
  obtain ⟨e, he, rfl⟩ := List.mem_map.1 hmem
  obtain rfl : e = d := Option.some.inj ((get?_of_mem_ancestry he).symm.trans hd)
  rw [heq] at he
  exact get?_of_mem_ancestry he

/-- A name at which the walk ends for want of a class is unknown in every registry with that
lineage. -/
theorem get?_eq_none_of_lineage_eq (heq : r.lineage name = r'.lineage name) (hx : r.Reaches name x)
    (hnone : r.get? x = none) : r'.get? x = none := by
  rcases Relation.ReflTransGen.cases_tail hx with rfl | ⟨y, hy, hstep⟩
  · -- the name itself is unknown if its chain is empty
    rw [← chain_eq_nil_iff, ← heq, chain_eq_nil_iff]
    exact hnone
  · -- the class before it names it as a parent in the other registry, too
    by_contra hknown
    obtain ⟨d, hd, hparent⟩ := extends_iff.1 hstep
    have hd' : r'.get? y = some d := get?_of_lineage_eq heq hy hd
    have hy' : y ∈ (r'.lineage name).chain := by
      rw [← heq]
      exact mem_chain_iff.2 ⟨hy, by rw [hd]; exact Option.some_ne_none d⟩
    have hmem := mem_chain_of_extends hy' (extends_iff.2 ⟨d, hd', hparent⟩) hknown
    rw [← heq] at hmem
    exact get?_ne_none_of_mem_chain hmem hnone

/-- **A lineage depends on the classes along the parents, and on all of them.** -/
theorem agreesAlong_iff_lineage_eq : r.AgreesAlong r' name ↔ r.lineage name = r'.lineage name := by
  refine ⟨lineage_congr, fun heq x hx => ?_⟩
  cases hget : r.get? x with
  | none => exact (get?_eq_none_of_lineage_eq heq hx hget).symm
  | some d => exact (get?_of_lineage_eq heq hx hget).symm

/-- It does not matter on which of the registries the parents are followed. -/
theorem AgreesAlong.symm (h : r.AgreesAlong r' name) : r'.AgreesAlong r name :=
  agreesAlong_iff_lineage_eq.2 (agreesAlong_iff_lineage_eq.1 h).symm

/-- To agree is to have the same classes, as far as the parents lead to them. -/
theorem agreesAlong_iff_mem :
    r.AgreesAlong r' name ↔ ∀ d, r.Reaches name d.name → (d ∈ r.classes ↔ d ∈ r'.classes) := by
  constructor
  · intro h d hd
    have hget := h d.name hd
    constructor
    · intro hmem
      exact mem_of_get? (hget ▸ get?_of_mem hmem)
    · intro hmem
      exact mem_of_get? (hget ▸ get?_of_mem hmem)
  · intro h x hx
    cases hget : r.get? x with
    | some d =>
      obtain rfl := name_of_get? hget
      exact (get?_of_mem ((h d hx).1 (mem_of_get? hget))).symm
    | none =>
      -- a class that only the other registry had would be reached
      cases hget' : r'.get? x with
      | none => rfl
      | some d =>
        obtain rfl := name_of_get? hget'
        have hmem : d ∈ r.classes := (h d hx).2 (mem_of_get? hget')
        exact absurd hget (get?_ne_none_of_mem hmem)

end Registry

open Registry

/-- **Classes outside the ancestry do not interfere.** Registries that agree along the parents of a
class make the same of it, and only they do. In particular classes to which the parents do not lead
may come, go and change. -/
theorem flattensAlike_iff (s : Script) (r r' : Registry) (name : String) :
    (r.AgreesAlong r' name ↔ FlattensAlike s r r' name) ∧
      (r.AgreesAlong r' name ↔ r'.AgreesAlong r name) ∧
      (r.AgreesAlong r' name ↔ ∀ d, r.Reaches name d.name → (d ∈ r.classes ↔ d ∈ r'.classes)) := by
  refine ⟨⟨fun h => ?_, fun h => agreesAlong_iff_lineage_eq.2 h.lineage⟩, ⟨.symm, .symm⟩,
    agreesAlong_iff_mem⟩
  have hlineage := lineage_congr h
  constructor
  case lineage => exact hlineage
  case rooted => exact ⟨roots_chain fun x _ => rfl, roots_chain h⟩
  case resolution => rw [hlineage]
  case flattened =>
    intro o d hd
    rw [Script.flatten, Script.flatten, hd, hlineage]

/-- Without the class `C`, which extends it, the class `B` stays what it is, and `C` does not. -/
theorem flattensAlike_withoutDescendant : ∃ r r' : Registry, accessorBetween.registry = .ok r ∧
    r.names = ["A", "B", "C"] ∧ r'.names = ["A", "B"] ∧
    r.AgreesAlong r' "B" ∧ FlattensAlike accessorBetween r r' "B" ∧
    ¬ FlattensAlike accessorBetween r r' "C" := by
  obtain ⟨r, hr, htest⟩ := Script.exists_registry (s := accessorBetween)
    (p := fun r => r.names == ["A", "B", "C"] && (r.lineage "B").chain == ["A", "B"])
    (by decide +kernel)
  rw [Bool.and_eq_true, beq_iff_eq, beq_iff_eq] at htest
  obtain ⟨hnames, hchain⟩ := htest
  let r' : Registry :=
    ⟨r.classes.take 2, r.distinct.sublist ((List.take_sublist 2 r.classes).map _)⟩
  have hnames' : r'.names = ["A", "B"] := by
    rw [names, List.map_take, ← names, hnames]
    rfl
  have hagree : r.AgreesAlong r' "B" := by
    refine agreesAlong_iff_mem.2 fun d hd =>
      ⟨fun hmem => ?_, fun hmem => (List.take_sublist 2 _).mem hmem⟩
    -- the class is on the chain of `B`, and those that are left out are not
    have hon : d.name ∈ (r.lineage "B").chain := mem_chain_iff.2 ⟨hd, get?_ne_none_of_mem hmem⟩
    rw [hchain] at hon
    rw [← List.take_append_drop 2 r.classes, List.mem_append] at hmem
    refine hmem.resolve_right fun hdrop => ?_
    have hname : d.name ∈ r.names.drop 2 := by
      rw [names, ← List.map_drop]
      exact List.mem_map_of_mem hdrop
    rw [hnames] at hname
    rw [List.mem_singleton.1 hname] at hon
    exact absurd hon (by decide)
  refine ⟨r, r', hr, hnames, hnames', hagree,
    (flattensAlike_iff accessorBetween r r' "B").1.1 hagree, ?_⟩
  -- registries that agree along the parents of `C` would both have `C`
  intro hsame
  have hin : "C" ∈ r.names := hnames ▸ by decide
  obtain ⟨c, hc, hname⟩ := List.mem_map.1 hin
  have hmem := agreesAlong_iff_mem.1 (agreesAlong_iff_lineage_eq.2 hsame.lineage) c (hname ▸ .refl)
  have hout : c.name ∈ r'.names := List.mem_map_of_mem (hmem.1 hc)
  rw [hnames', hname] at hout
  exact absurd hout (by decide)

end Disinherit
