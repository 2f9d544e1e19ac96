/-!
# Catalogs

Values under names, in the order of the names. `get?` is the view: a catalog is known by what it
holds under each name (`get?_set_self`, `get?_set_of_ne`), and `set` keeps the names in order.
-/

namespace Ingest

structure Catalog (α : Type) where
  entries : List (String × α) := []
  deriving DecidableEq, Repr

namespace Catalog

variable {α β : Type}

def empty : Catalog α := ⟨[]⟩

/-- The first value under a name. -/
def find (name : String) : List (String × α) → Option α
  | [] => none
  | (n, v) :: rest => if n = name then some v else find name rest

/-- Puts a value under a name, in place of the one that is there or else in name order. -/
def insert (name : String) (v : α) : List (String × α) → List (String × α)
  | [] => [(name, v)]
  | (n, w) :: rest =>
    if n = name then (n, v) :: rest
    else if name < n then (name, v) :: (n, w) :: rest
    else (n, w) :: insert name v rest

def get? (c : Catalog α) (name : String) : Option α :=
  find name c.entries

def contains (c : Catalog α) (name : String) : Bool :=
  (c.get? name).isSome

def set (c : Catalog α) (name : String) (v : α) : Catalog α :=
  ⟨insert name v c.entries⟩

def erase (c : Catalog α) (name : String) : Catalog α :=
  ⟨c.entries.filter fun e => e.1 ≠ name⟩

def map (f : α → β) (c : Catalog α) : Catalog β :=
  ⟨c.entries.map fun e => (e.1, f e.2)⟩

/-- Changes what is under a name, if anything is. -/
def modify (c : Catalog α) (name : String) (f : α → α) : Catalog α :=
  match c.get? name with
  | some v => c.set name (f v)
  | none => c

/-- The catalog of a list of pairs; a later pair replaces an earlier one of its name. -/
def ofList (es : List (String × α)) : Catalog α :=
  es.foldl (fun c e => c.set e.1 e.2) empty

theorem find_insert_self (name : String) (v : α) (es : List (String × α)) :
    find name (insert name v es) = some v := by
  induction es with
  | nil => simp [insert, find]
  | cons e es ih =>
    obtain ⟨n, w⟩ := e
    by_cases h : n = name
    · simp [insert, find, h]
    · by_cases hlt : name < n
      · simp [insert, find, h, hlt]
      · simp [insert, find, h, hlt, ih]

theorem find_insert_of_ne {name other : String} (h : other ≠ name) (v : α)
    (es : List (String × α)) : find other (insert name v es) = find other es := by
  induction es with
  | nil => simp [insert, find, h.symm]
  | cons e es ih =>
    obtain ⟨n, w⟩ := e
    by_cases hn : n = name
    · subst hn
      simp [insert, find, h.symm]
    · by_cases hlt : name < n
      · simp [insert, find, hn, hlt, h.symm]
      · simp [insert, find, hn, hlt, ih]

@[simp] theorem get?_set_self (c : Catalog α) (name : String) (v : α) :
    (c.set name v).get? name = some v :=
  find_insert_self name v c.entries

theorem get?_set_of_ne (c : Catalog α) {name other : String} (h : other ≠ name) (v : α) :
    (c.set name v).get? other = c.get? other :=
  find_insert_of_ne h v c.entries

/-- What is under a name that holds a list. -/
def listAt (c : Catalog (List α)) (name : String) : List α :=
  match c.get? name with
  | some xs => xs
  | none => []

/-- Adds values at the end of the list under a name. -/
def append (c : Catalog (List α)) (name : String) (xs : List α) : Catalog (List α) :=
  c.set name (c.listAt name ++ xs)

end Catalog

end Ingest
