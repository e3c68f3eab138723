import Disinherit.Flatten
import Disinherit.Proofs.Lineage.Override
import Disinherit.Proofs.Lineage.Reach

/-!
# No class is lost

`Registry.keeps` leaves out a class that another class extends, since that one takes its members
over. It may be left out in turn, and so on. The main result (`exists_kept_descendant`) is that this
comes to an end where no class leads to a cycle: every class is merged into some class that is
written out.

The argument goes down from a class to one that extends it. `isExtended_iff` finds that class in the
registry, although the children of a class are recorded in the graph. Its chain is longer by at
least one (`length_chain_lt`), because a class in the chain of its own parent would go round. Chains
are no longer than the registry, so that the way down ends, and it ends at a class that is kept.
-/

namespace Disinherit

namespace Registry

variable {r : Registry} {name : String} {c d : ClassDecl}

/-! ### The children of a class -/

theorem childrenOf_foldl_record (name : String) (ds : List ClassDecl) (g : ParentGraph) :
    (ds.foldl (fun g d => match d.parent with
      | some p => g.record d.name p
      | none => g) g).childrenOf name
      = g.childrenOf name ++ (ds.filter (·.parent = some name)).map (·.name) := by
  induction ds generalizing g with
  | nil => simp
  | cons d ds ih =>
    rw [List.foldl_cons, ih]
    cases hp : d.parent with
    | none => simp [hp]
    | some p =>
      -- an edge to another parent does not count
      by_cases hname : name = p
      · subst hname
        simp [hp]
      · simp [hp, hname, Ne.symm hname]

/-- The children of a class are those that name it as their parent, in the order of the text. -/
theorem childrenOf_graph (r : Registry) (name : String) :
    r.graph.childrenOf name = (r.classes.filter (·.parent = some name)).map (·.name) :=
  childrenOf_foldl_record name r.classes .empty

theorem isExtended_iff : r.isExtended name = true ↔ ∃ c ∈ r.classes, c.parent = some name := by
  simp [isExtended, ParentGraph.isExtended, childrenOf_graph]

/-! ### One step down -/

/-- What leads to a class has the whole chain of that class in its own. -/
theorem chain_subset_of_reaches {x y : String} (h : r.Reaches x y) :
    (r.lineage y).chain ⊆ (r.lineage x).chain := by
  intro z hz
  obtain ⟨hreach, hknown⟩ := mem_chain_iff.1 hz
  exact mem_chain_iff.2 ⟨h.trans hreach, hknown⟩

/-- A class that does not go round has a longer chain than the class that it extends. -/
theorem length_chain_lt (hc : c ∈ r.classes) (hparent : c.parent = some name)
    (hacyclic : r.cycle? c.name = none) :
    (r.lineage name).chain.length < (r.lineage c.name).chain.length := by
  have hstep : r.Extends c.name name := extends_of_mem hc hparent
  -- otherwise the parent would lead back to the class
  have hnew : c.name ∉ (r.lineage name).chain := by
    intro hmem
    exact not_endless_of_cycle? hacyclic (endless_of_reaches hstep (reaches_of_mem_chain hmem))
  have hnodup : (c.name :: (r.lineage name).chain).Nodup :=
    List.nodup_cons.2 ⟨hnew, r.nodup_ancestry name⟩
  have hsub : c.name :: (r.lineage name).chain ⊆ (r.lineage c.name).chain :=
    List.cons_subset.2 ⟨mem_chain_self hc, chain_subset_of_reaches (.single hstep)⟩
  exact (List.subperm_of_subset hnodup hsub).length_le

/-- A class that is left out is extended by another, unless only exported classes are asked for. -/
theorem exists_child_of_not_keeps {o : Options} (honly : o.exportOnly = false)
    (h : r.keeps o d = false) : ∃ c ∈ r.classes, c.parent = some d.name := by
  simp only [keeps, honly, Bool.false_eq_true, if_false, Bool.or_eq_false_iff,
    Bool.not_eq_false'] at h
  exact isExtended_iff.1 h.2

/-! ### The way down -/

theorem exists_keeps_of_acyclic {o : Options} (hacyclic : ∀ name ∈ r.names, r.cycle? name = none)
    (honly : o.exportOnly = false) (hd : d ∈ r.classes) :
    ∃ e ∈ r.classes, r.keeps o e = true ∧ r.Reaches e.name d.name := by
  -- the chains on the way down get longer, and none is longer than the registry
  induction hroom : r.classes.length - (r.lineage d.name).chain.length using Nat.strong_induction_on
    generalizing d with
  | _ room ih =>
    cases hkeeps : r.keeps o d with
    | true => exact ⟨d, hd, hkeeps, .refl⟩
    | false =>
      -- a class that is not kept has been extended
      obtain ⟨c, hc, hparent⟩ := exists_child_of_not_keeps honly hkeeps
      have hlonger := length_chain_lt hc hparent (hacyclic c.name (List.mem_map_of_mem hc))
      have hbound := r.length_chain_le c.name
      obtain ⟨e, he, hkept, hreach⟩ := ih _ (by omega) hc rfl
      exact ⟨e, he, hkept, hreach.tail (extends_of_mem hc hparent)⟩

/-- The class of a name in a chain is among the classes that the chain was made of. -/
theorem mem_ancestry_of_mem_chain (hd : d ∈ r.classes) (h : d.name ∈ (r.lineage name).chain) :
    d ∈ (r.lineage name).ancestry := by
  obtain ⟨d', hd', hname⟩ := List.mem_map.1 h
  have hknown := get?_of_mem_ancestry hd'
  rw [hname, get?_of_mem hd] at hknown
  rw [Option.some.inj hknown]
  exact hd'

end Registry

/-- **No class is lost where no class leads to a cycle.** Whichever classes are left out, unless it
is for not being exported, every class is merged into one that is written out. -/
theorem exists_kept_descendant {r : Registry} (hacyclic : ∀ name ∈ r.names, r.cycle? name = none)
    (o : Options) (honly : o.exportOnly = false) :
    ∀ d ∈ r.classes, ∃ e ∈ r.classes, r.keeps o e = true ∧ d ∈ (r.lineage e.name).ancestry ∧
      d.name ∈ (r.lineage e.name).chain := by
  intro d hd
  obtain ⟨e, he, hkept, hreach⟩ := Registry.exists_keeps_of_acyclic hacyclic honly hd
  have hchain := Registry.mem_chain_iff.2 ⟨hreach, Registry.get?_ne_none_of_mem hd⟩
  exact ⟨e, he, hkept, Registry.mem_ancestry_of_mem_chain hd hchain, hchain⟩

/-- Of the three classes `A`, `B` and `C`, each of which extends the one before, only `C` is written
out, and the other two are merged into it. -/
theorem exists_kept_descendant_accessorBetween : ∃ r, accessorBetween.registry = .ok r ∧
    (∀ name ∈ r.names, r.cycle? name = none) ∧
    r.classes.map (fun d => (d.name, r.keeps {} d)) = [("A", false), ("B", false), ("C", true)] ∧
    ∀ d ∈ r.classes, ∃ e ∈ r.classes, r.keeps {} e = true ∧ d ∈ (r.lineage e.name).ancestry ∧
      d.name ∈ (r.lineage e.name).chain := by
  obtain ⟨r, hr, htest⟩ := Script.exists_registry (s := accessorBetween)
    (p := fun r => r.names.all (fun name => (r.cycle? name).isNone)
      && r.classes.map (fun d => (d.name, r.keeps {} d))
        == [("A", false), ("B", false), ("C", true)]) (by decide +kernel)
  obtain ⟨hcycles, hkeeps⟩ := Bool.and_eq_true_iff.1 htest
  have hacyclic : ∀ name ∈ r.names, r.cycle? name = none := fun name hname =>
    Option.isNone_iff_eq_none.1 (List.all_eq_true.1 hcycles name hname)
  exact ⟨r, hr, hacyclic, beq_iff_eq.1 hkeeps, exists_kept_descendant hacyclic {} rfl⟩

end Disinherit
