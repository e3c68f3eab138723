import Disinherit.Command.Run

/-!
# Commands in a world

A command that runs in a `World` is a function of it: the answer, and the world as it is afterwards.
The lemmas of this file give both for the parts from which commands are made, so that nothing else
has to look at how they are put together.

Some parts only look (`World.Looks`): they read the input and ask for files, and leave the world as
it was.
-/

namespace Disinherit

namespace World

/-! ### Parts that only look -/

section

variable {α β : Type}

/-- The world stays as it was. -/
def Looks (x : StateM World α) : Prop :=
  ∀ w, (x.run w).2 = w

theorem looks_pure (a : α) : Looks (pure a : StateM World α) :=
  fun _ => rfl

theorem Looks.bind {x : StateM World α} {f : α → StateM World β} (hx : Looks x)
    (hf : ∀ a, Looks (f a)) : Looks (x >>= f) := by
  intro w
  show ((f (x.run w).1).run (x.run w).2).2 = w
  rw [hf, hx]

/-- The second part of a run starts from where the first one ends. -/
theorem run_bind {x : StateM World α} {w w' : World} {a : α} (h : x.run w = (a, w'))
    (f : α → StateM World β) : (x >>= f).run w = (f a).run w' := by
  show (f (x.run w).1).run (x.run w).2 = _
  rw [h]

end

theorem looks_readText (input : Option String) :
    Looks (readText input : StateM World (Except CommandError String)) := by
  unfold readText
  cases input with
  | none | some path =>
    -- reading leaves the world as it is, and what follows only judges what was read
    refine Looks.bind (fun _ => rfl) fun bytes? => ?_
    dsimp only
    split
    · exact looks_pure _
    · split <;> exact looks_pure _

/-! ### The parser -/

/-- The tree that the parser gives next. -/
def tree (w : World) : Node :=
  w.trees.head?.getD .empty

/-- The world once the parser gave its tree. -/
def parsed (w : World) : World :=
  { w with trees := w.trees.tail }

theorem run_parse (w : World) (text : String) :
    (Host.parse text : StateM World Node).run w = (w.tree, w.parsed) := rfl

/-- The text to work on, or why there is none. -/
def text (w : World) (input : Option String) : Except CommandError String :=
  ((readText input : StateM World (Except CommandError String)).run w).1

variable (w : World)

theorem run_readText (input : Option String) :
    (readText input : StateM World (Except CommandError String)).run w = (w.text input, w) :=
  Prod.ext rfl (looks_readText input w)

/-! ### Ends of a run -/

variable {w} {w' : World} {words : List String} {args : Arguments} {text output : String}
    {status : Nat}

/-- The words have been read. -/
theorem run_of_parse (h : Arguments.parse words = .ok args) (w : World) :
    (run words : StateM World (Attempt Nat)).run w
      = (perform args : StateM World (Attempt Nat)).run w := by
  rw [run, h]

/-- There is no output but a status. -/
theorem run_perform_of_status (h : w.text args.input = .ok text)
    (hproduce : (produce args text : StateM World (Attempt (Except Nat String))).run w
      = (.ok (.error status), w')) :
    (perform args : StateM World (Attempt Nat)).run w = (.ok status, w') := by
  rw [perform, run_bind (run_readText w args.input), h]
  exact run_bind hproduce _

theorem run_perform_of_output (h : w.text args.input = .ok text)
    (hproduce : (produce args text : StateM World (Attempt (Except Nat String))).run w
      = (.ok (.ok output), w')) :
    (perform args : StateM World (Attempt Nat)).run w
      = (deliver args output : StateM World (Attempt Nat)).run w' := by
  rw [perform, run_bind (run_readText w args.input), h]
  exact run_bind hproduce _

end World

end Disinherit
