/-!
# Tables in order of arrival

A `Table` is a list of keys with their values, in the order in which the keys first came.
`Table.put` gives a key a value: a known key keeps its place, a new one goes to the end.
`Table.push` does the same for tables of lists and adds one element to the list of its key.

`get?_put` and `get?_push` say what a later look-up finds, and `keys_put` and `keys_push` where the
keys stand.
-/

namespace Disinherit

/-- Keys with their values, in the order in which the keys first came. -/
abbrev Table (κ α : Type) := List (κ × α)

namespace Table

variable {κ α : Type} [DecidableEq κ]

/-- The keys in order. -/
def keys (t : Table κ α) : List κ := t.map (·.1)

/-- The value of a key. -/
def get? (t : Table κ α) (k : κ) : Option α :=
  (t.find? (·.1 = k)).map (·.2)

/-- Changes the value of a key, which is `none` before a new key came. -/
def alter (k : κ) (f : Option α → α) : Table κ α → Table κ α
  | [] => [(k, f none)]
  | (k', a) :: t => if k' = k then (k', f (some a)) :: t else (k', a) :: alter k f t

/-- Gives a key a value. -/
def put (t : Table κ α) (k : κ) (a : α) : Table κ α :=
  alter k (fun _ => a) t

/-- Adds an element at the end of the list of a key. -/
def push (t : Table κ (List α)) (k : κ) (a : α) : Table κ (List α) :=
  alter k (fun as => as.getD [] ++ [a]) t

theorem get?_alter (t : Table κ α) (k k' : κ) (f : Option α → α) :
    get? (alter k f t) k' = if k' = k then some (f (get? t k)) else get? t k' := by
  induction t with
  | nil =>
    by_cases h : k = k'
    · subst h; simp [alter, get?]
    · simp [alter, get?, h, Ne.symm h]
  | cons e t ih =>
    obtain ⟨k₀, a⟩ := e
    by_cases h₀ : k₀ = k
    · subst h₀
      by_cases h : k₀ = k'
      · subst h; simp [alter, get?]
      · simp [alter, get?, h, Ne.symm h]
    · by_cases h : k₀ = k'
      · subst h; simp [alter, get?, h₀]
      · simp only [get?] at ih
        simp [alter, get?, h₀, h, ih]

theorem keys_alter (t : Table κ α) (k : κ) (f : Option α → α) :
    keys (alter k f t) = if k ∈ keys t then keys t else keys t ++ [k] := by
  induction t with
  | nil => simp [alter, keys]
  | cons e t ih =>
    obtain ⟨k₀, a⟩ := e
    by_cases h₀ : k₀ = k
    · subst h₀; simp [alter, keys]
    · simp only [keys] at ih
      by_cases hk : k ∈ t.map (·.1) <;> simp_all [alter, keys, Ne.symm h₀]

@[simp] theorem get?_put (t : Table κ α) (k k' : κ) (a : α) :
    get? (put t k a) k' = if k' = k then some a else get? t k' :=
  get?_alter t k k' _

@[simp] theorem keys_put (t : Table κ α) (k : κ) (a : α) :
    keys (put t k a) = if k ∈ keys t then keys t else keys t ++ [k] :=
  keys_alter t k _

@[simp] theorem get?_push (t : Table κ (List α)) (k k' : κ) (a : α) :
    get? (push t k a) k' = if k' = k then some ((get? t k).getD [] ++ [a]) else get? t k' :=
  get?_alter t k k' _

@[simp] theorem keys_push (t : Table κ (List α)) (k : κ) (a : α) :
    keys (push t k a) = if k ∈ keys t then keys t else keys t ++ [k] :=
  keys_alter t k _

end Table

end Disinherit
