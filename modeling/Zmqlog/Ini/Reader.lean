import Mathlib.Data.List.Basic
import Mathlib.Logic.Function.Basic
import Zmqlog.Ini.Accept

/-! `INIReader`: the values of a file by section and name. -/
namespace Zmqlog.Ini.Reader
open Scan Parse Accept

structure INIReader where
  error : Int
  values : Text → Option Text

def parse {σ : Type} (handler : Handler σ) (user : σ) : Option Text → σ × Int
  | none => (user, -1)
  | some content => ((parseFile handler user content).user, (parseFile handler user content).error)

def lower (s : Text) : Text := s.map Char.toLower

def makeKey (heading name : Text) : Text := lower (heading ++ '=' :: name)

def valueHandler : Handler (Text → Option Text) := fun values heading name value =>
  let key := makeKey heading name
  let old := (values key).getD []
  (Function.update values key (some ((if 0 < old.length then old ++ ['\n'] else old) ++ value)),
    true)

def INIReader.new (file : Option Text) : INIReader :=
  ⟨(parse valueHandler (fun _ => none) file).2, (parse valueHandler (fun _ => none) file).1⟩

def INIReader.get (reader : INIReader) (heading name defaultValue : Text) : Text :=
  (reader.values (makeKey heading name)).getD defaultValue

theorem toLower_eq_equals (c : Char) : c.toLower = '=' ↔ c = '=' := by
  unfold Char.toLower
  split
  · rename_i hupper
    refine ⟨fun h => ?_, ?_⟩
    · have hsum : (c.val.toNat + 32) % 4294967296 = 61 := congrArg (fun c : Char => c.val.toNat) h
      have hge : 65 ≤ c.val.toNat := UInt32.le_iff_toNat_le.mp hupper.1
      have hle : c.val.toNat ≤ 90 := UInt32.le_iff_toNat_le.mp hupper.2
      omega
    · rintro rfl
      exact absurd hupper (by decide)
  · rfl

theorem equals_lower (s : Text) : '=' ∈ lower s ↔ '=' ∈ s := by
  simp [lower, toLower_eq_equals]

theorem append_cons_inj {c : Char} {s s' t t' : Text} (h : c ∉ t) (h' : c ∉ t') :
    s ++ c :: t = s' ++ c :: t' ↔ s = s' ∧ t = t' := by
  refine ⟨fun heq => ?_, fun heq => by rw [heq.1, heq.2]⟩
  rcases List.append_eq_append_iff.mp heq with ⟨between, hs, ht⟩ | ⟨between, hs, ht⟩
  · cases between with
    | nil => exact ⟨by simpa using hs.symm, by simpa using ht⟩
    | cons d between =>
      cases ht
      exact absurd (by simp) h
  · cases between with
    | nil => exact ⟨by simpa using hs, by simpa using ht.symm⟩
    | cons d between =>
      cases ht
      exact absurd (by simp) h'

/-- As no name has a `=` in it, a key tells where its section ends. -/
theorem makeKey_inj {heading name heading' name' : Text} (h : '=' ∉ name) (h' : '=' ∉ name') :
    makeKey heading name = makeKey heading' name' ↔
      lower heading = lower heading' ∧ lower name = lower name' := by
  have hkey (heading name : Text) : makeKey heading name = lower heading ++ '=' :: lower name := by
    simp [makeKey, lower, show ('=' : Char).toLower = '=' by decide]
  rw [hkey, hkey]
  exact append_cons_inj (mt (equals_lower name).mp h) (mt (equals_lower name').mp h')

/-- The values that come one after the other, as one text. Empty ones at the
front leave nothing, not even a newline. -/
def joined (values : List Text) : Text :=
  List.intercalate ['\n'] (values.dropWhile List.isEmpty)

theorem intercalate_snoc (sep : Text) (values : List Text) (value : Text) (h : values ≠ []) :
    List.intercalate sep (values ++ [value]) = List.intercalate sep values ++ sep ++ value := by
  induction values with
  | nil => exact absurd rfl h
  | cons v values ih =>
    cases values with
    | nil => simp [List.intercalate_cons_cons]
    | cons w values =>
      have htail := ih (List.cons_ne_nil w values)
      rw [List.cons_append, List.cons_append, List.intercalate_cons_cons, ← List.cons_append, htail,
        List.intercalate_cons_cons]
      simp

theorem joined_snoc (values : List Text) (value : Text) :
    joined (values ++ [value]) =
      (if 0 < (joined values).length then joined values ++ ['\n'] else joined values) ++ value := by
  unfold joined
  rw [List.dropWhile_append]
  cases h : values.dropWhile List.isEmpty with
  | nil => cases value <;> simp
  | cons v vs =>
    have hv : v ≠ [] := by
      have hhead := List.head_dropWhile_not List.isEmpty (l := values) (by simp [h])
      simpa [h] using hhead
    have hpos : 0 < (List.intercalate ['\n'] (v :: vs)).length := by
      cases vs with
      | nil => simpa using List.length_pos_iff.mpr hv
      | cons w ws =>
        rw [List.intercalate_cons_cons, List.length_append, List.length_append]
        exact Nat.lt_of_lt_of_le Nat.one_pos (by simp +arith)
    rw [if_pos hpos, if_neg (by simp), intercalate_snoc _ _ _ (List.cons_ne_nil v vs)]

def valuesOf (cs : List Call) (heading name : Text) : List Text :=
  (cs.filter fun c => lower c.heading = lower heading ∧ lower c.name = lower name).map Call.value

theorem made_valueHandler (cs : List Call) (key : Text) :
    made valueHandler (fun _ => none) cs key =
      if cs.filter (fun c => makeKey c.heading c.name = key) = [] then none
      else some (joined ((cs.filter fun c => makeKey c.heading c.name = key).map Call.value)) := by
  induction cs using List.reverseRecOn with
  | nil => rfl
  | append_singleton cs c ih =>
    have hmade : made valueHandler (fun _ => none) (cs ++ [c]) =
        (valueHandler (made valueHandler (fun _ => none) cs) c.heading c.name c.value).1 := by
      simp [made]
    rw [hmade, List.filter_append]
    by_cases hkey : makeKey c.heading c.name = key
    · subst hkey
      have hold : (made valueHandler (fun _ => none) cs (makeKey c.heading c.name)).getD [] =
          joined ((cs.filter fun c' => makeKey c'.heading c'.name = makeKey c.heading c.name).map
            Call.value) := by
        rw [ih]
        split
        · rename_i hnone
          rw [hnone]
          rfl
        · rfl
      simp only [valueHandler, Function.update_self, hold, ← joined_snoc]
      simp
    · simp only [valueHandler, Function.update_of_ne (Ne.symm hkey), ih]
      simp [hkey]

theorem get_made {cs : List Call} (hcs : ∀ c ∈ cs, '=' ∉ c.name) {name : Text} (hname : '=' ∉ name)
    (heading defaultValue : Text) :
    (made valueHandler (fun _ => none) cs (makeKey heading name)).getD defaultValue =
      if valuesOf cs heading name = [] then defaultValue
      else joined (valuesOf cs heading name) := by
  have hfilter : cs.filter (fun c => makeKey c.heading c.name = makeKey heading name) =
      cs.filter fun c => lower c.heading = lower heading ∧ lower c.name = lower name :=
    List.filter_congr fun c hmem => decide_eq_decide.mpr (makeKey_inj (hcs c hmem) hname)
  rw [made_valueHandler, hfilter, valuesOf]
  simp only [List.map_eq_nil_iff]
  split <;> rfl

end Zmqlog.Ini.Reader
