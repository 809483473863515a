/-!
# Cutting texts at a character

* `splitOn sep cs` is the list of the pieces between the separators: joining them again gives `cs`
  (`join_splitOn`). It also gives back pieces that were joined, if no separator is in them
  (`splitOn_join`).
* `cut? sep cs` is the text before and the text after the first separator, if there is one
  (`cut?_eq_some_iff`).
* `behind? mark cs` is what is behind `mark`, if `cs` begins with it (`behind?_eq_some_iff`).
* `join sep ts` puts a separator text between the pieces.

Texts are lists of characters or of bytes.
-/

namespace TestOrchestrator.Text

section

variable {α : Type}

section

variable [DecidableEq α]

/-- The pieces of a text between the occurrences of `sep`. -/
def splitOn (sep : α) : List α → List (List α)
  | [] => [[]]
  | c :: cs =>
    if c = sep then [] :: splitOn sep cs
    else
      match splitOn sep cs with
      | [] => [[c]]
      | p :: ps => (c :: p) :: ps

theorem splitOn_ne_nil (sep : α) (cs : List α) : splitOn sep cs ≠ [] := by
  cases cs with
  | nil => simp [splitOn]
  | cons c cs =>
    rw [splitOn]
    split
    · simp
    · split <;> simp

theorem splitOn_append_cons {sep : α} {p : List α} (h : sep ∉ p) (cs : List α) :
    splitOn sep (p ++ sep :: cs) = p :: splitOn sep cs := by
  induction p with
  | nil => simp [splitOn]
  | cons c p ih =>
    rw [List.cons_append, splitOn, if_neg (List.ne_of_not_mem_cons h).symm,
      ih (List.not_mem_of_not_mem_cons h)]

theorem splitOn_of_not_mem {sep : α} {cs : List α} (h : sep ∉ cs) : splitOn sep cs = [cs] := by
  induction cs with
  | nil => rfl
  | cons c cs ih =>
    rw [splitOn, if_neg (List.ne_of_not_mem_cons h).symm, ih (List.not_mem_of_not_mem_cons h)]

theorem not_mem_of_mem_splitOn {sep : α} {cs p : List α} (h : p ∈ splitOn sep cs) : sep ∉ p := by
  induction cs generalizing p with
  | nil =>
    rw [splitOn, List.mem_singleton] at h
    simp [h]
  | cons c cs ih =>
    rw [splitOn] at h
    split at h
    · rcases List.mem_cons.1 h with rfl | h
      · simp
      · exact ih h
    · rename_i hc
      rcases hs : splitOn sep cs with _ | ⟨q, qs⟩
      · exact absurd hs (splitOn_ne_nil sep cs)
      · rw [hs] at h ih
        rcases List.mem_cons.1 h with rfl | h
        · exact List.not_mem_cons_of_ne_of_not_mem (Ne.symm hc) (ih List.mem_cons_self)
        · exact ih (List.mem_cons_of_mem q h)

/-- The texts before and after the first occurrence of `sep`. -/
def cut? (sep : α) : List α → Option (List α × List α)
  | [] => none
  | c :: cs =>
    if c = sep then some ([], cs)
    else (cut? sep cs).map fun (before, after) => (c :: before, after)

theorem cut?_append_cons {sep : α} {before : List α} (h : sep ∉ before) (after : List α) :
    cut? sep (before ++ sep :: after) = some (before, after) := by
  induction before with
  | nil => simp [cut?]
  | cons c before ih =>
    rw [List.cons_append, cut?, if_neg (List.ne_of_not_mem_cons h).symm,
      ih (List.not_mem_of_not_mem_cons h)]
    rfl

theorem cut?_eq_none_iff {sep : α} {cs : List α} : cut? sep cs = none ↔ sep ∉ cs := by
  induction cs with
  | nil => simp [cut?]
  | cons c cs ih =>
    rw [cut?, List.mem_cons, not_or]
    by_cases hc : c = sep
    · simp [hc]
    · rw [if_neg hc, Option.map_eq_none_iff, ih]
      simp [Ne.symm hc]

/-- A text is cut at its first separator. -/
theorem cut?_eq_some_iff {sep : α} {cs before after : List α} :
    cut? sep cs = some (before, after) ↔ cs = before ++ sep :: after ∧ sep ∉ before := by
  constructor
  · intro h
    induction cs generalizing before with
    | nil => simp [cut?] at h
    | cons c cs ih =>
      rw [cut?] at h
      split at h
      · rename_i hc
        cases h
        exact ⟨by rw [hc]; rfl, List.not_mem_nil⟩
      · rename_i hc
        obtain ⟨⟨start, rest⟩, hcut, heq⟩ := Option.map_eq_some_iff.1 h
        cases heq
        obtain ⟨hcs, hstart⟩ := ih hcut
        exact ⟨congrArg (c :: ·) hcs, List.not_mem_cons_of_ne_of_not_mem (Ne.symm hc) hstart⟩
  · rintro ⟨rfl, h⟩
    exact cut?_append_cons h after

/-- What is behind `mark` at the front. -/
def behind? : List α → List α → Option (List α)
  | [], cs => some cs
  | _ :: _, [] => none
  | m :: mark, c :: cs => if m = c then behind? mark cs else none

theorem behind?_eq_some_iff {mark cs rest : List α} :
    behind? mark cs = some rest ↔ cs = mark ++ rest := by
  induction mark generalizing cs with
  | nil => simp [behind?]
  | cons m mark ih =>
    cases cs with
    | nil => simp [behind?]
    | cons c cs =>
      rw [behind?, Option.ite_none_right_eq_some, ih, List.cons_append, List.cons.injEq, eq_comm]

end

/-- The pieces with `sep` between neighbours. -/
def join (sep : List α) : List (List α) → List α
  | [] => []
  | [p] => p
  | p :: ps => p ++ sep ++ join sep ps

theorem join_splitOn [DecidableEq α] (sep : α) (cs : List α) :
    join [sep] (splitOn sep cs) = cs := by
  induction cs with
  | nil => rfl
  | cons c cs ih =>
    rw [splitOn]
    rcases hs : splitOn sep cs with _ | ⟨p, ps⟩
    · exact absurd hs (splitOn_ne_nil sep cs)
    · rw [hs] at ih
      by_cases h : c = sep
      · simp [h, join, ih]
      · cases ps with
        | nil => simp_all [join]
        | cons q qs => simp_all [join]

/-- Pieces without a separator are found again when they were joined. -/
theorem splitOn_join [DecidableEq α] {sep : α} {ps : List (List α)} (hne : ps ≠ [])
    (h : ∀ p ∈ ps, sep ∉ p) :
    splitOn sep (join [sep] ps) = ps := by
  induction ps with
  | nil => exact absurd rfl hne
  | cons p ps ih =>
    obtain ⟨hp, hps⟩ := List.forall_mem_cons.1 h
    cases ps with
    | nil => exact splitOn_of_not_mem hp
    | cons q ps =>
      show splitOn sep (p ++ [sep] ++ join [sep] (q :: ps)) = p :: q :: ps
      rw [List.append_assoc, List.singleton_append, splitOn_append_cons hp,
        ih (List.cons_ne_nil q ps) hps]

end

/-- The texts with `sep` between neighbours. -/
def joined (sep : String) (ts : List String) : String :=
  String.ofList (join sep.toList (ts.map String.toList))

theorem toList_joined (sep : String) (ts : List String) :
    (joined sep ts).toList = join sep.toList (ts.map String.toList) := String.toList_ofList

end TestOrchestrator.Text
