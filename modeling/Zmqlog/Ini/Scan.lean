import Mathlib.Data.List.DropRight
import Mathlib.Data.List.TakeWhile

/-! The string helpers of `ini.c`. A byte is written as the character of its
code, and a C string as the list of what stands before its null. -/
namespace Zmqlog.Ini.Scan

abbrev Text := List Char

def nul : Char := Char.ofNat 0

/-- In the C locale. -/
def isspace (c : Char) : Bool := c == ' ' || ('\t' ≤ c && c ≤ '\r')

def rstrip (s : Text) : Text := s.rdropWhile isspace

def lskip (s : Text) : Text := s.dropWhile isspace

/-- `find_chars_or_comment`: what stands before the place that it returns, and
what stands from there on. The null pointer for `chars` is the empty list. -/
def findCharsOrComment (chars : List Char) (wasSpace : Bool) : Text → Text × Text
  | [] => ([], [])
  | c :: s =>
    if c ∈ chars ∨ wasSpace = true ∧ c = ';' then ([], c :: s)
    else (c :: (findCharsOrComment chars (isspace c) s).1,
      (findCharsOrComment chars (isspace c) s).2)

/-- `strncpy0` into a buffer of this size. -/
def strncpy0 (src : Text) (size : Nat) : Text := src.take (size - 1)

theorem rstrip_snoc {s : Text} {c : Char} (h : isspace c = true) : rstrip (s ++ [c]) = rstrip s :=
  List.rdropWhile_concat_pos _ s c h

theorem rstrip_append_cons {s t : Text} {c : Char} (h : isspace c = false) :
    rstrip (s ++ c :: t) = s ++ c :: rstrip t := by
  induction t using List.reverseRecOn with
  | nil => exact List.rdropWhile_concat_neg _ s c (by simp [h])
  | append_singleton t d ih =>
    have hassoc : s ++ c :: (t ++ [d]) = (s ++ c :: t) ++ [d] := by simp
    by_cases hd : isspace d = true
    · rw [hassoc, rstrip_snoc hd, rstrip_snoc hd, ih]
    · rw [hassoc, rstrip, rstrip, List.rdropWhile_concat_neg _ _ _ hd,
        List.rdropWhile_concat_neg _ _ _ hd, hassoc]

theorem rstrip_sublist (s : Text) : (rstrip s).Sublist s :=
  (List.rdropWhile_prefix isspace s).sublist

theorem lskip_sublist (s : Text) : (lskip s).Sublist s :=
  (List.dropWhile_suffix isspace).sublist

theorem lskip_cons {c : Char} {s : Text} (h : isspace c = false) : lskip (c :: s) = c :: s := by
  simp [lskip, h]

theorem lskip_head {s t : Text} {c : Char} (h : lskip s = c :: t) : isspace c = false := by
  induction s with
  | nil => cases h
  | cons d s ih =>
    by_cases hd : isspace d = true
    · exact ih (by simpa [lskip, hd] using h)
    · rw [lskip_cons (by simpa using hd)] at h
      cases h
      simpa using hd

theorem lskip_initial {s t : Text} (h : s <+: lskip t) : lskip s = s := by
  obtain ⟨rest, hrest⟩ := h
  cases s with
  | nil => rfl
  | cons c s => exact lskip_cons (lskip_head hrest.symm)

def Stripped (s : Text) : Prop := lskip s = s ∧ rstrip s = s

theorem stripped_rstrip_lskip (s : Text) : Stripped (rstrip (lskip s)) :=
  ⟨lskip_initial (List.rdropWhile_prefix isspace _), List.rdropWhile_idempotent isspace _⟩

theorem stripped_lskip_rstrip (s : Text) : Stripped (lskip (rstrip s)) := by
  refine ⟨lskip_initial List.prefix_rfl, List.rdropWhile_eq_self_iff.mpr fun hne => ?_⟩
  have hsuffix : lskip (rstrip s) <:+ rstrip s := List.dropWhile_suffix isspace
  rw [hsuffix.getLast hne]
  exact List.rdropWhile_last_not isspace s _

/-- No `;` in it begins a comment, where `wasSpace` tells whether whitespace
stands before it. -/
def uncommented (wasSpace : Bool) : Text → Bool
  | [] => true
  | c :: s => !(wasSpace && c == ';') && uncommented (isspace c) s

section Find
variable (chars : List Char) (wasSpace : Bool) (s : Text)

theorem find_append :
    (findCharsOrComment chars wasSpace s).1 ++ (findCharsOrComment chars wasSpace s).2 = s := by
  fun_induction findCharsOrComment chars wasSpace s with
  | case1 => rfl
  | case2 => rfl
  | case3 wasSpace c s hstop ih => rw [List.cons_append, ih]

theorem find_clean : ∀ c ∈ (findCharsOrComment chars wasSpace s).1, c ∉ chars := by
  fun_induction findCharsOrComment chars wasSpace s with
  | case1 => simp
  | case2 => simp
  | case3 wasSpace c s hstop ih =>
    rw [not_or] at hstop
    intro d hd
    rcases List.mem_cons.mp hd with rfl | hd
    · exact hstop.1
    · exact ih d hd

end Find

theorem find_of_clean {chars : List Char} {wasSpace : Bool} {s rest : Text}
    (hclean : ∀ c ∈ s, c ∉ chars) (hcomment : uncommented wasSpace s = true)
    (hrest : ∀ c t, rest = c :: t → c ∈ chars) :
    findCharsOrComment chars wasSpace (s ++ rest) = (s, rest) := by
  induction s generalizing wasSpace with
  | nil =>
    cases rest with
    | nil => rfl
    | cons c t => exact if_pos (.inl (hrest c t rfl))
  | cons c s ih =>
    simp only [uncommented, Bool.and_eq_true, Bool.not_eq_true'] at hcomment
    have hon : ¬ (c ∈ chars ∨ wasSpace = true ∧ c = ';') := by
      rw [not_or]
      exact ⟨hclean c List.mem_cons_self, by simpa using hcomment.1⟩
    have htail := ih (fun d hd => hclean d (List.mem_cons_of_mem c hd)) hcomment.2
    rw [List.cons_append, findCharsOrComment, if_neg hon, htail]

end Zmqlog.Ini.Scan
