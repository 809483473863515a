import TestOrchestrator.Proofs.ReadBack.QuotedText
/-!
# What is written between quotes

* `quoted_double` and `FitsSingle.quoted`: what the printer puts between double and between single
  quotes is a text word by word.
* `exists_span` and `exists_spaces` split a text where one kind of character ends, which is how
  texts are cut into words and lines here.
-/

namespace TestOrchestrator.Yaml

namespace Quoting

open Scalar

variable {n : Nat} {cs ds : List Char}

theorem solid_escaped {d : Char} (hd : d ≠ ' ') (rest : List Char) : Solid (escaped d ++ rest) := by
  rcases escaped_cases d with ⟨hescaped, hprintable, hbreak, -⟩ | ⟨e, hescaped, -⟩ | ⟨e, k,
    hescaped, -⟩
  · rw [hescaped]
    intro c hc
    cases Option.mem_some.1 hc
    exact ⟨isSpace_of_isPrintable hprintable hd, hbreak⟩
  · rw [hescaped]
    intro c hc
    cases Option.mem_some.1 hc
    exact ⟨rfl, rfl⟩
  · rw [hescaped]
    intro c hc
    cases Option.mem_some.1 hc
    exact ⟨rfl, rfl⟩

/-- The longest beginning of one kind. -/
theorem exists_span {α : Type} (p : α → Bool) (xs : List α) :
    ∃ w t, xs = w ++ t ∧ (∀ x ∈ w, p x = true) ∧ ∀ x ∈ t.head?, p x = false := by
  induction xs with
  | nil => exact ⟨[], [], rfl, by simp, by simp⟩
  | cons x xs ih =>
    cases hx : p x with
    | false => exact ⟨[], x :: xs, rfl, by simp, by simpa using hx⟩
    | true =>
      obtain ⟨w, t, rfl, hw, ht⟩ := ih
      exact ⟨x :: w, t, rfl, List.forall_mem_cons.2 ⟨hx, hw⟩, ht⟩

/-- Spaces at the start of a text. -/
theorem exists_spaces {d : Char} (hd : d = ' ') (cs : List Char) :
    ∃ k t, d :: cs = pad (k + 1) ++ t ∧ ∀ e ∈ t.head?, e ≠ ' ' := by
  obtain ⟨s, t, rfl, hs, ht⟩ := exists_span (· = ' ') cs
  refine ⟨s.length, t, ?_, fun e he => by simpa using ht e he⟩
  have hpad : s = pad s.length := List.eq_replicate_of_mem fun e he => by simpa using hs e he
  rw [hd, pad, List.replicate_succ, List.cons_append, ← pad, ← hpad]

theorem flatMap_escaped_pad (k : Nat) : (pad k).flatMap escaped = pad k := by
  induction k with
  | zero => rfl
  | succ k ih =>
    rw [pad, List.replicate_succ, List.flatMap_cons, ← pad, ih]
    rfl

theorem quoted_double (n : Nat) (cs : List Char) : Quoted true n cs (cs.flatMap escaped) := by
  induction h : cs.length using Nat.strongRecOn generalizing cs with
  | ind k ih =>
    obtain ⟨w, t, rfl, hw, ht⟩ := exists_span (· ≠ ' ') cs
    have hinside : ∀ d ∈ w, InWord true d := fun d hd => ⟨by simpa using hw d hd, nofun⟩
    cases t with
    | nil =>
      rw [List.append_nil]
      exact .word hinside
    | cons d t =>
      obtain ⟨j, u, hu, hsolid⟩ := exists_spaces (by simpa using ht) t
      rw [hu, List.flatMap_append, List.flatMap_append, flatMap_escaped_pad, ← List.append_assoc,
        ← List.append_assoc]
      refine .gap hinside (.spaces j) ?_ (ih u.length ?_ u rfl)
      · cases u with
        | nil => exact nofun
        | cons e u => exact solid_escaped (hsolid e rfl) _
      · rw [← h, hu]
        simp [pad]
        omega

theorem adjacent_append {p q : Char → Bool} (h : adjacent p q (cs ++ ds) = false) :
    adjacent p q ds = false := by
  induction cs with
  | nil => exact h
  | cons c cs ih =>
    apply ih
    rw [List.cons_append] at h
    cases hcs : cs ++ ds with
    | nil => rfl
    | cons d es =>
      rw [hcs, adjacent, Bool.or_eq_false_iff] at h
      exact h.2

theorem not_adjacent {p q : Char → Bool} {c d : Char}
    (h : adjacent p q (cs ++ c :: d :: ds) = false)
    (hc : p c = true) : q d = false := by
  have h' := adjacent_append h
  rw [adjacent, hc, Bool.true_and, Bool.or_eq_false_iff] at h'
  exact h'.1

/-- Behind characters of one kind comes none of the other. -/
theorem not_adjacent_of_forall {p q : Char → Bool} {s : List Char} {d : Char}
    (h : adjacent p q (s ++ d :: ds) = false) (hne : s ≠ []) (hs : ∀ c ∈ s, p c = true) :
    q d = false := by
  obtain ⟨s, c, rfl⟩ := (List.eq_nil_or_concat s).resolve_left hne
  rw [List.concat_eq_append, List.append_assoc] at h
  exact not_adjacent h (hs c (by simp))

theorem indented_line {x : List Char} (hx : x.any isBreak = false) (y : List Char) :
    indented n false (x ++ y) = x ++ indented n false y := by
  induction x with
  | nil => rfl
  | cons d x ih =>
    rw [List.any_cons, Bool.or_eq_false_iff] at hx
    rw [List.cons_append, indented, ih hx.2]
    simp [hx.1]

theorem indented_breaks {start : Bool} {b : Char} {bs : List Char}
    (hbs : ∀ d ∈ b :: bs, isBreak d = true)
    (y : List Char) : indented n start (b :: bs ++ y) = b :: bs ++ indented n true y := by
  induction bs generalizing b start with
  | nil => simp [indented, hbs b List.mem_cons_self]
  | cons d bs ih =>
    obtain ⟨hb, hbs⟩ := List.forall_mem_cons.1 hbs
    rw [List.cons_append, indented, if_pos hb, ih hbs]
    rfl

/-- How a text is written between single quotes. -/
def lines (n : Nat) (cs : List Char) : List Char :=
  indented n false (cs.flatMap (within false)) ++ (if cs.getLast?.any isBreak then pad n else [])

theorem single_eq (n : Nat) (cs : List Char) : single n cs = '\'' :: lines n cs ++ ['\''] := by
  have hwithin : (fun c => if c = '\'' then ['\'', '\''] else [c]) = within false := rfl
  simp [single, lines, hwithin]

theorem lines_nil (n : Nat) : lines n [] = [] := rfl

theorem any_isBreak_flatMap {x : List Char} (hx : ∀ d ∈ x, isBreak d = false) :
    (x.flatMap (within false)).any isBreak = false := by
  rw [List.any_flatMap, List.any_eq_false]
  intro d hd
  by_cases hquote : d = '\''
  · subst hquote
    decide
  · simp [within, hquote, hx d hd]

theorem lines_line {x : List Char} (hx : ∀ d ∈ x, isBreak d = false) (t : List Char) :
    lines n (x ++ t) = x.flatMap (within false) ++ lines n t := by
  have hlast : (if (x ++ t).getLast?.any isBreak then pad n else []) =
      if t.getLast?.any isBreak then pad n else [] := by
    cases t with
    | cons d t => rw [List.getLast?_append_of_ne_nil _ (List.cons_ne_nil d t)]
    | nil =>
      rw [List.append_nil, if_neg, if_neg (by simp)]
      rw [Option.any_eq_true_iff_get]
      rintro ⟨h, hbreak⟩
      have hmem := List.mem_of_getLast? (Option.some_get h).symm
      rw [hx _ hmem] at hbreak
      cases hbreak
  rw [lines, List.flatMap_append, indented_line (any_isBreak_flatMap hx), hlast, List.append_assoc]
  rfl

theorem lines_breaks {b : Char} {bs t : List Char}
    (hbs : ∀ d ∈ b :: bs, d.toNat = 0x2028 ∨ d.toNat = 0x2029)
    (ht : ∀ d ∈ t.head?, isBreak d = false) :
    lines n (b :: bs ++ t) = b :: bs ++ pad n ++ lines n t := by
  have hbreaks : ∀ d ∈ b :: bs, isBreak d = true := fun d hd => (isBreak_of_separator (hbs d hd)).1
  have hwithin : (b :: bs).flatMap (within false) = b :: bs := by
    refine (List.flatMap_congr fun d hd => ?_).trans (List.flatMap_singleton' _)
    have hquote : d ≠ '\'' := by
      rintro rfl
      simpa using hbs _ hd
    simp [within, hquote]
  rw [lines, List.flatMap_append, hwithin, indented_breaks hbreaks]
  cases t with
  | nil =>
    have hlast : ((b :: bs) ++ []).getLast?.any isBreak = true := by
      rw [List.append_nil, List.getLast?_eq_getLast_of_ne_nil (List.cons_ne_nil b bs)]
      exact hbreaks _ (List.getLast_mem _)
    rw [if_pos hlast]
    simp [indented, lines_nil]
  | cons d t =>
    have hd := ht d rfl
    have hstart : indented n true ((d :: t).flatMap (within false)) =
        pad n ++ indented n false ((d :: t).flatMap (within false)) := by
      rw [List.flatMap_cons]
      by_cases hquote : d = '\''
      · subst hquote
        rfl
      · simp [within, hquote, indented, hd]
    rw [hstart, List.getLast?_append_of_ne_nil _ (List.cons_ne_nil d t), lines]
    simp only [List.append_assoc]

theorem isBreak_iff_of_isPrintable {d : Char} (h : isPrintable d = true) (hfeed : d ≠ '\n') :
    isBreak d = true ↔ d.toNat = 0x2028 ∨ d.toNat = 0x2029 := by
  constructor
  · intro hbreak
    have hcode : d.toNat ≠ 0x85 := by
      intro hcode
      simp [isPrintable, hcode] at h
    have hreturn : d ≠ '\r' := by
      rintro rfl
      simp [isPrintable] at h
    simpa [isBreak, hcode, hreturn, hfeed] using hbreak
  · exact fun h => (isBreak_of_separator h).1

theorem solid_lines {d : Char} (hd : InWord false d) (t : List Char) :
    Solid (lines n (d :: t)) := by
  obtain ⟨hspace, hprintable⟩ := hd
  obtain ⟨hprintable, hbreak⟩ := hprintable rfl
  have hline : lines n ([d] ++ t) = [d].flatMap (within false) ++ lines n t :=
    lines_line (by simpa using hbreak) t
  rw [List.singleton_append] at hline
  rw [hline]
  by_cases hquote : d = '\''
  · subst hquote
    intro c hc
    cases Option.mem_some.1 hc
    exact ⟨rfl, rfl⟩
  · intro c hc
    have hcd : c = d := by simpa [within, hquote, eq_comm] using hc
    rw [hcd]
    exact ⟨isSpace_of_isPrintable hprintable hspace, hbreak⟩

theorem flatMap_within_pad (k : Nat) : (pad k).flatMap (within false) = pad k := by
  induction k with
  | zero => rfl
  | succ k ih =>
    rw [pad, List.replicate_succ, List.flatMap_cons, ← pad, ih]
    rfl

/-- A text that can be written between single quotes, with further lines indented by `n`. -/
structure FitsSingle (n : Nat) (cs : List Char) : Prop where
  printable : ∀ d ∈ cs, isPrintable d = true
  noFeed : '\n' ∉ cs
  spaceBreak : adjacent (· = ' ') isBreak cs = false
  breakSpace : adjacent isBreak (· = ' ') cs = false
  indented : cs.any isBreak = true → 0 < n

namespace FitsSingle

theorem append (h : FitsSingle n (cs ++ ds)) : FitsSingle n ds where
  printable d hd := h.printable d (List.mem_append_right _ hd)
  noFeed hmem := h.noFeed (List.mem_append_right _ hmem)
  spaceBreak := adjacent_append h.spaceBreak
  breakSpace := adjacent_append h.breakSpace
  indented hany := h.indented (by rw [List.any_append, hany, Bool.or_true])

/-- The gap at the start of a text. -/
theorem exists_gap {d : Char} {t : List Char} (h : FitsSingle n (d :: t))
    (hd : d = ' ' ∨ isBreak d = true) :
    ∃ s s' u, d :: t = s ++ u ∧ s ≠ [] ∧ Between n s s' ∧ lines n (d :: t) = s' ++ lines n u ∧
      ∀ e ∈ u.head?, InWord false e := by
  rcases hd with hd | hd
  · obtain ⟨j, u, hu, hhead⟩ := exists_spaces hd t
    have hpad : ∀ e ∈ pad (j + 1), e = ' ' := fun e he => List.eq_of_mem_replicate he
    have hline : ∀ e ∈ pad (j + 1), isBreak e = false := by
      intro e he
      rw [hpad e he]
      rfl
    refine ⟨pad (j + 1), _, u, hu, List.cons_ne_nil ' ' (pad j), .spaces j, ?_, ?_⟩
    · rw [hu, lines_line hline, flatMap_within_pad]
    · intro e he
      obtain ⟨u, rfl⟩ : ∃ u', u = e :: u' := List.head?_eq_some_iff.1 he
      rw [hu] at h
      have happart := not_adjacent_of_forall h.spaceBreak (List.cons_ne_nil ' ' (pad j))
        fun c hc => by simpa using hpad c hc
      exact ⟨hhead e rfl, fun _ => ⟨h.printable e (by simp), happart⟩⟩
  · obtain ⟨bs, u, rfl, hbs, hhead⟩ := exists_span isBreak t
    have hbreaks : ∀ e ∈ d :: bs, isBreak e = true := List.forall_mem_cons.2 ⟨hd, hbs⟩
    rw [← List.cons_append] at h ⊢
    have hseparators : ∀ e ∈ d :: bs, e.toNat = 0x2028 ∨ e.toNat = 0x2029 := by
      intro e he
      have hmem : e ∈ d :: bs ++ u := List.mem_append_left _ he
      have hfeed : e ≠ '\n' := by
        rintro rfl
        exact h.noFeed hmem
      exact (isBreak_iff_of_isPrintable (h.printable e hmem) hfeed).1 (hbreaks e he)
    have hindent : 0 < n := h.indented (List.any_eq_true.2 ⟨d, by simp, hd⟩)
    refine ⟨d :: bs, _, u, rfl, List.cons_ne_nil d bs, .breaks hseparators hindent,
      lines_breaks hseparators hhead, ?_⟩
    intro e he
    obtain ⟨u, rfl⟩ : ∃ u', u = e :: u' := List.head?_eq_some_iff.1 he
    have happart := not_adjacent_of_forall h.breakSpace (List.cons_ne_nil d bs) hbreaks
    exact ⟨by simpa using happart, fun _ => ⟨h.printable e (by simp), hhead e rfl⟩⟩

theorem quoted (h : FitsSingle n cs) : Quoted false n cs (lines n cs) := by
  induction hk : cs.length using Nat.strongRecOn generalizing cs with
  | ind k ih =>
    obtain ⟨w, t, rfl, hw, ht⟩ := exists_span (fun d => d ≠ ' ' && !isBreak d) cs
    have hinside : ∀ d ∈ w, InWord false d := by
      intro d hd
      have hword := hw d hd
      rw [Bool.and_eq_true, decide_eq_true_eq, Bool.not_eq_true'] at hword
      exact ⟨hword.1, fun _ => ⟨h.printable d (List.mem_append_left _ hd), hword.2⟩⟩
    have hline : ∀ d ∈ w, isBreak d = false := fun d hd => ((hinside d hd).2 rfl).2
    rw [lines_line hline]
    cases t with
    | nil =>
      rw [lines_nil, List.append_nil, List.append_nil]
      exact .word hinside
    | cons d t =>
      have hd : d = ' ' ∨ isBreak d = true := by
        have hd := ht d rfl
        rwa [Bool.and_eq_false_iff, decide_eq_false_iff_not, not_not, Bool.not_eq_false'] at hd
      obtain ⟨s, s', u, hu, hne, hbetween, hlines, hhead⟩ := h.append.exists_gap hd
      have hsolid : Solid (lines n u) := by
        cases u with
        | nil => exact nofun
        | cons e u => exact solid_lines (hhead e rfl) u
      have hshort : u.length < k := by
        have hpos := List.length_pos_iff.2 hne
        rw [← hk, hu, List.length_append, List.length_append]
        omega
      have hfits : FitsSingle n u := by
        have htail := h.append
        rw [hu] at htail
        exact htail.append
      rw [hlines, hu, ← List.append_assoc, ← List.append_assoc]
      exact .gap hinside hbetween hsolid (ih u.length hshort hfits rfl)

end FitsSingle

end Quoting

end TestOrchestrator.Yaml
