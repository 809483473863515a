import TestOrchestrator.Text.Order
/-!
# Tables

Finite maps from names to values, in the order of the names by their characters. Two tables with the
same values under the same names are the same table.

* `Table.get? t name` is the value under a name; `t.insert name a` puts one there.
* `get?_insert` says what an insertion changes.
* `Table.ofList` inserts pairs in order, so the last value under a name stays.
* `Table.update t u` has the values of `u` and, under the other names, those of `t`
  (`get?_update`).
* `Table.map f t` has other values under the same names (`get?_map`).
-/

namespace TestOrchestrator

open Text

/-- A finite map from names to values. -/
structure Table (α : Type) where
  entries : List (String × α)
  sorted : entries.Pairwise (fun p q => Precedes p.1 q.1)

namespace Table

variable {α : Type}

instance [DecidableEq α] : DecidableEq (Table α) := fun s t =>
  decidable_of_iff (s.entries = t.entries) <| by
    cases s; cases t; simp

/-- The table without entries. -/
def empty : Table α := ⟨[], .nil⟩

instance : Inhabited (Table α) := ⟨empty⟩

/-! ## Entries in order -/

/-- Puts a value under a name into a list of entries in order. -/
def insertEntry (name : String) (a : α) : List (String × α) → List (String × α)
  | [] => [(name, a)]
  | (k, b) :: es =>
    if Precedes name k then (name, a) :: (k, b) :: es
    else if name = k then (name, a) :: es
    else (k, b) :: insertEntry name a es

theorem mem_insertEntry {name : String} {a : α} {es : List (String × α)} {p : String × α}
    (h : p ∈ insertEntry name a es) : p = (name, a) ∨ p ∈ es := by
  induction es with
  | nil => simpa [insertEntry] using h
  | cons e es ih =>
    obtain ⟨k, b⟩ := e
    rw [insertEntry] at h
    split at h
    · simpa using h
    · split at h
      · rcases List.mem_cons.1 h with h | h
        · exact .inl h
        · exact .inr (.tail _ h)
      · rcases List.mem_cons.1 h with h | h
        · exact .inr (h ▸ .head _)
        · exact (ih h).imp_right (.tail _)

theorem sorted_insertEntry {name : String} {a : α} {es : List (String × α)}
    (h : es.Pairwise (fun p q => Precedes p.1 q.1)) :
    (insertEntry name a es).Pairwise (fun p q => Precedes p.1 q.1) := by
  induction es with
  | nil => simp [insertEntry]
  | cons e es ih =>
    obtain ⟨k, b⟩ := e
    obtain ⟨hk, hes⟩ := List.pairwise_cons.1 h
    rw [insertEntry]
    split
    · rename_i hlt
      refine List.pairwise_cons.2 ⟨fun p hp => ?_, h⟩
      rcases List.mem_cons.1 hp with rfl | hp
      · exact hlt
      · exact hlt.trans (hk p hp)
    · split
      · rename_i heq
        subst heq
        exact List.pairwise_cons.2 ⟨hk, hes⟩
      · rename_i hlt hne
        refine List.pairwise_cons.2 ⟨fun p hp => ?_, ih hes⟩
        rcases mem_insertEntry hp with rfl | hp
        · exact .of_not_of_ne hlt hne
        · exact hk p hp

theorem lookup_insertEntry (name k : String) (a : α) (es : List (String × α)) :
    (insertEntry name a es).lookup k = if k = name then some a else es.lookup k := by
  induction es with
  | nil =>
    by_cases h : k = name
    · simp [insertEntry, h]
    · have hb : (k == name) = false := by simp [h]
      simp [insertEntry, List.lookup_cons, hb, h]
  | cons e es ih =>
    obtain ⟨j, b⟩ := e
    rw [insertEntry]
    split
    · by_cases h : k = name
      · simp [h]
      · have hb : (k == name) = false := by simp [h]
        simp [List.lookup_cons, hb, h]
    · split
      · rename_i heq
        subst heq
        by_cases h : k = name
        · simp [h]
        · have hb : (k == name) = false := by simp [h]
          simp [List.lookup_cons, hb, h]
      · rename_i hne
        rw [List.lookup_cons, List.lookup_cons, ih]
        by_cases h : k = name
        · subst h
          have hb : (k == j) = false := by simp [hne]
          simp [hb]
        · simp [h]

/-! ## Tables -/

/-- The value under a name. -/
def get? (t : Table α) (name : String) : Option α := t.entries.lookup name

/-- Puts a value under a name, in place of the one that was there. -/
def insert (t : Table α) (name : String) (a : α) : Table α :=
  ⟨insertEntry name a t.entries, sorted_insertEntry t.sorted⟩

/-- The names in order. -/
def names (t : Table α) : List String := t.entries.map Prod.fst

def isEmpty (t : Table α) : Bool := t.entries.isEmpty

def size (t : Table α) : Nat := t.entries.length

@[simp] theorem get?_empty (name : String) : (empty : Table α).get? name = none := rfl

theorem get?_insert (t : Table α) (name k : String) (a : α) :
    (t.insert name a).get? k = if k = name then some a else t.get? k :=
  lookup_insertEntry name k a t.entries

/-- Inserts pairs in order. -/
def insertAll (t : Table α) (ps : List (String × α)) : Table α :=
  ps.foldl (fun t p => t.insert p.1 p.2) t

/-- The table of pairs; the last value under a name stays. -/
def ofList (ps : List (String × α)) : Table α := empty.insertAll ps

/-- The values of `u` and, under the names that `u` does not have, those of `t`. -/
def update (t u : Table α) : Table α := t.insertAll u.entries

theorem lookup_eq_none_of_precedes {es : List (String × α)} {name : String}
    (h : ∀ p ∈ es, Precedes name p.1) : es.lookup name = none := by
  rw [List.lookup_eq_none_iff]
  intro p hp
  have hne : name ≠ p.1 := fun e => Precedes.irrefl _ (e ▸ h p hp)
  simp [hne]

theorem get?_insertAll {ps : List (String × α)} (h : ps.Pairwise (fun p q => Precedes p.1 q.1))
    (t : Table α) (k : String) : (t.insertAll ps).get? k = (ps.lookup k).or (t.get? k) := by
  induction ps generalizing t with
  | nil => rfl
  | cons p ps ih =>
    obtain ⟨name, a⟩ := p
    obtain ⟨hp, hps⟩ := List.pairwise_cons.1 h
    rw [insertAll, List.foldl_cons, ← insertAll, ih hps, List.lookup_cons, get?_insert]
    by_cases hk : k = name
    · subst hk
      rw [lookup_eq_none_of_precedes hp]
      simp
    · have hb : (k == name) = false := by simp [hk]
      simp [hk, hb]

theorem get?_update (t u : Table α) (k : String) :
    (t.update u).get? k = (u.get? k).or (t.get? k) :=
  get?_insertAll u.sorted t k

/-- Other values under the same names. -/
def map {β : Type} (f : α → β) (t : Table α) : Table β :=
  ⟨t.entries.map fun (name, a) => (name, f a), List.pairwise_map.2 t.sorted⟩

theorem get?_map {β : Type} (f : α → β) (t : Table α) (k : String) :
    (t.map f).get? k = (t.get? k).map f := by
  show (t.entries.map _).lookup k = (t.entries.lookup k).map f
  induction t.entries with
  | nil => rfl
  | cons e es ih =>
    obtain ⟨name, a⟩ := e
    rw [List.map_cons, List.lookup_cons, List.lookup_cons, ih]
    cases k == name <;> rfl

end Table

end TestOrchestrator
