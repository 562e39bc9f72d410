/-!
# Stores

A store binds names to integers.  It keeps the order in which names were first
bound; binding a name again changes its value in place.
-/

namespace ParserKit

abbrev Store := List (String × Int)

namespace Store

def empty : Store := []

def value? (store : Store) (name : String) : Option Int := store.lookup name

def bind : Store → String → Int → Store
  | [], name, v => [(name, v)]
  | (other, w) :: more, name, v =>
      if other = name then (name, v) :: more else (other, w) :: bind more name v

def ofList (bindings : List (String × Int)) : Store :=
  bindings.foldl (fun store b => store.bind b.1 b.2) empty

theorem value?_cons (b : String × Int) (store : Store) (name : String) :
    value? (b :: store) name = if b.1 = name then some b.2 else value? store name := by
  obtain ⟨other, w⟩ := b
  by_cases h : other = name
  · simp [value?, h]
  · have hne : (name == other) = false := by simpa using fun heq => h heq.symm
    simp [value?, List.lookup_cons, h, hne]

@[simp]
theorem value?_bind_self (store : Store) (name : String) (v : Int) :
    (store.bind name v).value? name = some v := by
  induction store with
  | nil => simp [bind, value?_cons]
  | cons b more ih =>
      unfold bind
      split
      · simp [value?_cons]
      · rename_i h
        simpa [value?_cons, h] using ih

theorem value?_bind_of_ne (store : Store) {name other : String} (v : Int)
    (h : other ≠ name) : (store.bind name v).value? other = store.value? other := by
  have hne : name ≠ other := fun heq => h heq.symm
  induction store with
  | nil => simp [bind, value?_cons, hne]
  | cons b more ih =>
      unfold bind
      split
      · rename_i hb
        simp [value?_cons, hb, hne]
      · simp [value?_cons, ih]

end Store

end ParserKit
