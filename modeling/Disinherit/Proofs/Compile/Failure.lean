import Disinherit.Proofs.Compile.Writing
import Disinherit.Proofs.Super.Closure
import Mathlib.Data.List.Nodup

/-!
# When a compilation fails

There are two reasons to refuse a script: its tree has a fault, or two of its named top-level
classes share a name (`Refusable`). Where the tree lies on character boundaries, there is no third
reason (`compile_verdict`). What remains after these two checks can be read and written, by the
previous files, and no text that is asked for on the way cuts a character.

Two lists are relied on to have an entry at a certain position. A class takes properties in the name
of the owner of its first member, and a constructor becomes a method under the name at its own
position. `Registry.ListsSuffice` says that these entries are there, so that no owner is missing and
no constructor is dropped.
-/

namespace Disinherit

/-- A script is refused if its tree has a fault, or if two of its named top-level classes share a
name. -/
def Refusable (text : String) (tree : Node) : Prop :=
  tree.erroneous = true ∨ ∃ name, [name, name].Sublist (Script.mk (.ofText text) tree).classNames

/-- Lists have the entries that others rely on. -/
structure Registry.ListsSuffice (r : Registry) : Prop where
  /-- A class that takes properties has a first member, and owns it. -/
  firstMember : ∀ d ∈ r.classes, Inherited.propertiesTaken d.members.toList ≠ [] →
    ∃ m, d.members.toList[0]? = some m ∧ m.owner = d.name
  /-- Each constructor but the last has a name for the method that it becomes. -/
  methodName : ∀ target p i, i + 1 < (r.lineage target).constructors.length →
    ∃ name, (grantConstructorNames target (r.lineage target).constructors.dropLast p).1[i]?
      = some name

theorem length_grantConstructorNames (target : String) (ms : List Member) (p : Progress) :
    (grantConstructorNames target ms p).1.length = ms.length := by
  induction ms generalizing p with
  | nil => rfl
  | cons m ms ih =>
    rw [grantConstructorNames]
    exact congrArg (· + 1) (ih _)

theorem Script.listsSuffice {s : Script} {r : Registry} (hr : s.registry = .ok r) :
    r.ListsSuffice where
  firstMember d hd htaken := by
    cases hmembers : d.members.toList with
    | nil =>
      rw [hmembers] at htaken
      exact absurd rfl htaken
    | cons m ms =>
      refine ⟨m, rfl, (registers_of_registry hr hd).owner_eq ?_⟩
      rw [hmembers]
      exact List.mem_cons_self
  methodName target p i hi := by
    have hlength := length_grantConstructorNames target (r.lineage target).constructors.dropLast p
    rw [List.length_dropLast] at hlength
    have hlt :
        i < (grantConstructorNames target (r.lineage target).constructors.dropLast p).1.length := by
      omega
    exact ⟨_, List.getElem?_eq_getElem hlt⟩

section Compile

variable {text : String} {tree : Node}

/-- A registry is there exactly if no two classes share a name. -/
theorem Script.registry_cases {s : Script} (hroot : s.root.OnBoundaries s.source) :
    (∃ r, s.registry = .ok r) ∧ (¬ ∃ name, [name, name].Sublist s.classNames) ∨
      (∃ e, s.registry = .error (.refused e)) ∧ ∃ name, [name, name].Sublist s.classNames := by
  have hnodup : s.classNames.Nodup ↔ ¬ ∃ name, [name, name].Sublist s.classNames := by
    rw [List.nodup_iff_sublist, not_exists]
  have hstmts : ∀ stmt ∈ s.root.namedChildren, stmt.OnBoundaries s.source := fun stmt hstmt =>
    hroot.of_mem_namedChildren hstmt
  rcases registerAll_cases hstmts .empty with ⟨r, hr, hnames⟩ | ⟨herror, hrepeated⟩
  · -- the names of a registry are all different
    have hsame : s.classNames = r.names := hnames.symm
    refine .inl ⟨⟨r, hr⟩, hnodup.1 ?_⟩
    rw [hsame]
    exact r.distinct
  · exact .inr ⟨herror, not_not.1 fun h => hrepeated (hnodup.2 h)⟩

theorem compile_of_erroneous (o : Options) (text : String) (h : tree.erroneous = true) :
    ∃ e, compile o text tree = .error (.refused e) := by
  have hscript : Script.ofTree text tree = .error (.refused _) := if_pos h
  rw [compile, hscript]
  exact ⟨_, rfl⟩

theorem compile_of_not_erroneous (o : Options) (text : String) (h : ¬ tree.erroneous = true) :
    compile o text tree = (Script.mk (.ofText text) tree).registry >>= fun r =>
      (Script.mk (.ofText text) tree).emit r o >>= fun emission =>
        let diagnostics := (if o.validateInheritance then r.check else []) ++ emission.diagnostics
        pure ⟨emission.text, diagnostics, r,
          .registered r.classes.length :: emission.events ++ diagnostics.map .reported⟩ := by
  have hscript : Script.ofTree text tree = .ok ⟨.ofText text, tree⟩ := if_neg h
  rw [compile, hscript]
  rfl

/-- A compilation has a result, unless there is a reason to refuse the script. -/
theorem compile_cases (o : Options) (htree : tree.OnBoundaries (.ofText text)) :
    (∃ c, compile o text tree = .ok c ∧ c.registry.ListsSuffice) ∧ ¬ Refusable text tree ∨
      (∃ e, compile o text tree = .error (.refused e)) ∧ Refusable text tree := by
  by_cases hfault : tree.erroneous = true
  · exact .inr ⟨compile_of_erroneous o text hfault, .inl hfault⟩
  · rw [compile_of_not_erroneous o text hfault]
    rcases Script.registry_cases (s := ⟨.ofText text, tree⟩) htree with
      ⟨⟨r, hr⟩, hapart⟩ | ⟨⟨e, he⟩, hshared⟩
    · -- with a registry at hand nothing can fail any more
      obtain ⟨emission, hemit⟩ := Script.succeeds_emit hr htree o
      rw [hr]
      refine .inl ⟨?_, fun h => h.elim hfault hapart⟩
      show ∃ c, (Script.emit _ r o >>= _) = .ok c ∧ _
      rw [hemit]
      exact ⟨_, rfl, Script.listsSuffice hr⟩
    · rw [he]
      exact .inr ⟨⟨e, rfl⟩, .inr hshared⟩

/-- **A compilation fails for two reasons only.** Whatever the text, the options and the tree, if
its nodes lie between characters: the script is refused if and only if its tree has a fault or two
named top-level classes share a name, and in every other case there is a result. No text cuts a
character, and no list is too short. -/
theorem compile_verdict (o : Options) (htree : tree.OnBoundaries (.ofText text)) :
    ((∃ e, compile o text tree = .error (.refused e)) ↔ Refusable text tree) ∧
      ((∃ c, compile o text tree = .ok c ∧ c.registry.ListsSuffice) ↔ ¬ Refusable text tree) ∧
      compile o text tree ≠ .error .cutCharacter := by
  rcases compile_cases o htree with ⟨⟨c, hc, hlists⟩, hnot⟩ | ⟨⟨e, he⟩, hrefusable⟩
  · rw [hc]
    refine ⟨⟨?_, fun h => absurd h hnot⟩, ⟨fun _ => hnot, fun _ => ⟨c, rfl, hlists⟩⟩, ?_⟩
    · rintro ⟨e, he⟩
      cases he
    · intro hcut
      cases hcut
  · rw [he]
    refine ⟨⟨fun _ => hrefusable, fun _ => ⟨e, rfl⟩⟩, ⟨?_, fun h => absurd hrefusable h⟩, ?_⟩
    · rintro ⟨c, hc, -⟩
      cases hc
    · intro hcut
      cases hcut

end Compile

/-! ### A text with wide characters -/

/-- The classes `A` and `B` that extends it, among comments that count more bytes than characters.
The constructor of `B` starts on the line of two of them, and has the call `super()` on a line of
its own. -/
def wideText : String :=
  "/*ü*/class A\x7b\x7d/*é*/class B extends A\x7bconstructor()\x7b\r\n"
    ++ "\tsuper()\r\n//é\r\n\x7d\x7d\r\n//ö"

/-- What it is compiled to: the class `B` alone, without the line of the call. -/
def wideResult : String :=
  "/*ü*//*é*/export class B \x7b\r\n    constructor()\x7b\r\n"
    ++ "    //é\r\n    \x7d\r\n\x7d\r\n//ö"

/-- The tree of the text. -/
def wideTree : Node :=
  .sound (.other "program") none 0 79
    [.sound .comment none 0 6 [], .shortClass 6 13 15 [] [], .sound .comment none 15 21 [],
      .shortClass 21 38 73 [.shortHeritage 29]
        [.shortMethod 39 39 50 72 [] [.shortSuperCall 56, .sound .comment none 65 69 []]],
      .sound .comment none 75 79 []]

/-- Two classes of one name. -/
def namesakes : Script where
  source := .ofText "class A\x7b\x7dclass A\x7b\x7d"
  root := .sound (.other "program") none 0 18 [.shortClass 0 7 9 [] [], .shortClass 9 16 18 [] []]

/-- The line of the call is taken out and the others are moved, without harm to the comments.
Classes that share a name are refused. -/
theorem compile_verdict_wideText :
    wideTree.OnBoundaries (.ofText wideText) ∧ ¬ Refusable wideText wideTree ∧
    (∃ c, compile {} wideText wideTree = .ok c ∧ c.registry.ListsSuffice) ∧
    (compile {} wideText wideTree).toOption.map (·.code) = some wideResult ∧
    namesakes.root.OnBoundaries (.ofText namesakes.source.text) ∧
    ∃ e, compile {} namesakes.source.text namesakes.root = .error (.refused e) := by
  have htree : wideTree.OnBoundaries (.ofText wideText) := by decide +kernel
  have hnames : (Script.mk (.ofText wideText) wideTree).classNames.Nodup := by decide +kernel
  have hnot : ¬ Refusable wideText wideTree := by
    rintro (hfault | ⟨name, hshared⟩)
    · cases hfault
    · exact List.nodup_iff_sublist.1 hnames name hshared
  have htree' : namesakes.root.OnBoundaries (.ofText namesakes.source.text) := by decide +kernel
  have hshared : Refusable namesakes.source.text namesakes.root := .inr ⟨"A", by decide +kernel⟩
  exact ⟨htree, hnot, (compile_verdict {} htree).2.1.2 hnot, by decide +kernel, htree',
    (compile_verdict {} htree').1.2 hshared⟩

end Disinherit
