import Zmqlog.Ini.Scan

/-! `ini_parse_stream`, and `ini_parse_file` on top of it. -/
namespace Zmqlog.Ini.Parse
open Scan

def maxLine : Nat := 200

def maxSection : Nat := 50

def maxName : Nat := 50

/-- `fgets(line, INI_MAX_LINE, file)` over and over: each call takes the file
up to a newline, or as far as the buffer goes. -/
def readLines (buffer : Text) : Text → List Text
  | [] => if buffer = [] then [] else [buffer]
  | c :: s =>
    if c = '\n' ∨ buffer.length + 1 = maxLine - 1 then (buffer ++ [c]) :: readLines [] s
    else readLines (buffer ++ [c]) s

inductive Line
  | nothing
  | continued (value : Text)
  | header (name : Text)
  | pair (name value : Text)
  | bad
deriving DecidableEq

/-- `INI_ALLOW_BOM` -/
def byteOrderMark : Text := [Char.ofNat 0xEF, Char.ofNat 0xBB, Char.ofNat 0xBF]

def startsWithMark (lineno : Nat) (line : Text) : Bool :=
  lineno == 1 && byteOrderMark.isPrefixOf line

def content (lineno : Nat) (buffer : Text) : Text :=
  let line := buffer.takeWhile (· != nul)
  rstrip (if startsWithMark lineno line then line.drop 3 else line)

/-- `start > line`: the mark or whitespace has been skipped. -/
def indented (lineno : Nat) (buffer : Text) : Bool :=
  startsWithMark lineno (buffer.takeWhile (· != nul)) ||
    (lskip (content lineno buffer)).length < (content lineno buffer).length

/-- The branches of the loop's body, from `start` on. -/
def Line.ofStart (continues : Bool) : Text → Line
  | [] => .nothing
  | c :: s =>
    if c = ';' ∨ c = '#' then .nothing
    else if continues = true then .continued (c :: s)
    else if c = '[' then
      match findCharsOrComment [']'] false s with
      | (name, stop :: _) => if stop = ']' then .header name else .bad
      | (_, []) => .bad
    else
      match findCharsOrComment ['=', ':'] false (c :: s) with
      | (name, stop :: value) =>
        if stop = '=' ∨ stop = ':' then
          .pair (rstrip name) (rstrip (lskip (findCharsOrComment [] false value).1))
        else .bad
      | (_, []) => .bad

def readLine (lineno : Nat) (prevName buffer : Text) : Line :=
  .ofStart (!prevName.isEmpty && indented lineno buffer) (lskip (content lineno buffer))

theorem readLine_nil (lineno : Nat) (prevName : Text) : readLine lineno prevName [] = .nothing := by
  have hmark : startsWithMark lineno [] = false := Bool.and_false _
  simp [readLine, content, hmark, rstrip, lskip, Line.ofStart]

inductive Shape (s : Text) : Line → Prop
  | nothing : Shape s .nothing
  | bad : Shape s .bad
  | continued : Shape s (.continued s)
  | header (name rest : Text) (hs : s = '[' :: (name ++ ']' :: rest)) (hname : ']' ∉ name) :
      Shape s (.header name)
  | pair (name value : Text) (stop : Char) (rest : Text) (hs : s = name ++ stop :: (value ++ rest))
      (hname : '=' ∉ name ∧ ':' ∉ name) :
      Shape s (.pair (rstrip name) (rstrip (lskip value)))

theorem shape (continues : Bool) (start : Text) : Shape start (.ofStart continues start) := by
  cases start with
  | nil => exact .nothing
  | cons c s =>
    rw [Line.ofStart]
    split
    · exact .nothing
    · split
      · exact .continued
      · split
        · rename_i hc
          have happend := find_append [']'] false s
          have hclean := find_clean [']'] false s
          split
          · rename_i name stop rest hfind
            rw [hfind] at happend hclean
            split
            · rename_i hstop
              subst hc hstop
              exact .header name rest (by rw [← happend]) fun hmem => hclean _ hmem (by simp)
            · exact .bad
          · exact .bad
        · have happend := find_append ['=', ':'] false (c :: s)
          have hclean := find_clean ['=', ':'] false (c :: s)
          split
          · rename_i name stop value hfind
            rw [hfind] at happend hclean
            split
            · refine .pair name _ stop (findCharsOrComment [] false value).2 ?_ ⟨?_, ?_⟩
              · rw [find_append, ← happend]
              · exact fun hmem => hclean _ hmem (by simp)
              · exact fun hmem => hclean _ hmem (by simp)
            · exact .bad
          · exact .bad

universe u
variable {σ : Type u}

/-- What `ini_parse_stream` keeps from line to line, with what the handler has
made of the `user` pointer. -/
structure Progress (σ : Type u) where
  user : σ
  heading : Text
  prevName : Text
  lineno : Nat
  error : Nat

/-- Of the errors the first one is kept. -/
def Progress.fail (s : Progress σ) : Progress σ :=
  if s.error = 0 then { s with error := s.lineno } else s

/-- The handler, with what it returns: false is an error. -/
abbrev Handler (σ : Type u) := σ → Text → Text → Text → σ × Bool

def Progress.call (handler : Handler σ) (s : Progress σ) (name value : Text) : Progress σ :=
  let s' := { s with user := (handler s.user s.heading name value).1 }
  if (handler s.user s.heading name value).2 then s' else s'.fail

def Progress.take (handler : Handler σ) (s : Progress σ) : Line → Progress σ
  | .nothing => s
  | .continued value => s.call handler s.prevName value
  | .header name => { s with heading := strncpy0 name maxSection, prevName := [] }
  | .pair name value =>
    Progress.call handler { s with prevName := strncpy0 name maxName } name value
  | .bad => s.fail

def Progress.count (s : Progress σ) : Progress σ := { s with lineno := s.lineno + 1 }

def Progress.line (handler : Handler σ) (s : Progress σ) (buffer : Text) : Progress σ :=
  s.count.take handler (readLine (s.lineno + 1) s.prevName buffer)

def parseStream (handler : Handler σ) (user : σ) (lines : List Text) : Progress σ :=
  lines.foldl (Progress.line handler) ⟨user, [], [], 0, 0⟩

def parseFile (handler : Handler σ) (user : σ) (content : Text) : Progress σ :=
  parseStream handler user (readLines [] content)

structure Call where
  heading : Text
  name : Text
  value : Text
deriving DecidableEq

def record : Handler (List Call) := fun calls heading name value =>
  (calls ++ [⟨heading, name, value⟩], true)

def calls (lines : List Text) : List Call := (parseStream record [] lines).user

def made (handler : Handler σ) (user : σ) (cs : List Call) : σ :=
  cs.foldl (fun user c => (handler user c.heading c.name c.value).1) user

/-- Nothing that a handler does or returns changes what it is called with. -/
structure Follows (handler : Handler σ) (user : σ) (s : Progress σ) (r : Progress (List Call)) :
    Prop where
  user : s.user = made handler user r.user
  heading : s.heading = r.heading
  prevName : s.prevName = r.prevName
  lineno : s.lineno = r.lineno

section Fail
variable (s : Progress σ)

@[simp] theorem fail_user : s.fail.user = s.user := by unfold Progress.fail; split <;> rfl
@[simp] theorem fail_heading : s.fail.heading = s.heading := by unfold Progress.fail; split <;> rfl
@[simp] theorem fail_prevName : s.fail.prevName = s.prevName := by
  unfold Progress.fail; split <;> rfl
@[simp] theorem fail_lineno : s.fail.lineno = s.lineno := by unfold Progress.fail; split <;> rfl

end Fail

section Call
variable (handler : Handler σ) (s : Progress σ) (name value : Text)

@[simp] theorem call_user : (s.call handler name value).user =
    (handler s.user s.heading name value).1 := by
  unfold Progress.call; split <;> simp

@[simp] theorem call_heading : (s.call handler name value).heading = s.heading := by
  unfold Progress.call; split <;> simp

@[simp] theorem call_prevName : (s.call handler name value).prevName = s.prevName := by
  unfold Progress.call; split <;> simp

@[simp] theorem call_lineno : (s.call handler name value).lineno = s.lineno := by
  unfold Progress.call; split <;> simp

end Call

theorem Follows.call {handler : Handler σ} {user : σ} {s : Progress σ} {r : Progress (List Call)}
    (h : Follows handler user s r) (name value : Text) :
    Follows handler user (s.call handler name value) (r.call record name value) := by
  refine ⟨?_, by simpa using h.heading, by simpa using h.prevName, by simpa using h.lineno⟩
  rw [call_user, call_user, h.user, h.heading]
  simp [record, made]

theorem Follows.line {handler : Handler σ} {user : σ} {s : Progress σ} {r : Progress (List Call)}
    (h : Follows handler user s r) (buffer : Text) :
    Follows handler user (s.line handler buffer) (r.line record buffer) := by
  have hcount : Follows handler user s.count r.count :=
    ⟨h.user, h.heading, h.prevName, congrArg (· + 1) h.lineno⟩
  rw [Progress.line, Progress.line, h.lineno, h.prevName]
  cases readLine (r.lineno + 1) r.prevName buffer with
  | nothing => exact hcount
  | continued value =>
    rw [Progress.take, Progress.take, hcount.prevName]
    exact hcount.call _ value
  | header name => exact ⟨h.user, rfl, rfl, hcount.lineno⟩
  | pair name value =>
    have hnamed : Follows handler user { s.count with prevName := strncpy0 name maxName }
        { r.count with prevName := strncpy0 name maxName } :=
      ⟨h.user, h.heading, rfl, hcount.lineno⟩
    exact hnamed.call name value
  | bad =>
    rw [Progress.take, Progress.take]
    exact ⟨by simpa using hcount.user, by simpa using hcount.heading,
      by simpa using hcount.prevName, by simpa using hcount.lineno⟩

theorem parseStream_snoc (handler : Handler σ) (user : σ) (lines : List Text) (buffer : Text) :
    parseStream handler user (lines ++ [buffer]) =
      (parseStream handler user lines).line handler buffer := by
  simp [parseStream]

def Progress.rejects (handler : Handler σ) (s : Progress σ) (buffer : Text) : Bool :=
  match readLine (s.lineno + 1) s.prevName buffer with
  | .nothing => false
  | .continued value => !(handler s.user s.heading s.prevName value).2
  | .header _ => false
  | .pair name value => !(handler s.user s.heading name value).2
  | .bad => true

theorem line_lineno (handler : Handler σ) (s : Progress σ) (buffer : Text) :
    (s.line handler buffer).lineno = s.lineno + 1 := by
  rw [Progress.line]
  cases readLine (s.lineno + 1) s.prevName buffer <;> simp [Progress.take, Progress.count]

theorem call_error (handler : Handler σ) (s : Progress σ) (name value : Text) :
    (s.call handler name value).error =
      if s.error = 0 ∧ (handler s.user s.heading name value).2 = false then s.lineno
      else s.error := by
  unfold Progress.call Progress.fail
  cases (handler s.user s.heading name value).2 <;> by_cases herror : s.error = 0 <;> simp [herror]

theorem line_error (handler : Handler σ) (s : Progress σ) (buffer : Text) :
    (s.line handler buffer).error =
      if s.error = 0 ∧ s.rejects handler buffer = true then s.lineno + 1 else s.error := by
  rw [Progress.line, Progress.rejects]
  cases readLine (s.lineno + 1) s.prevName buffer with
  | nothing | header name => simp [Progress.take, Progress.count]
  | continued value | pair name value => simp [Progress.take, Progress.count, call_error]
  | bad =>
    by_cases herror : s.error = 0 <;>
      simp [Progress.take, Progress.count, Progress.fail, herror]

theorem parseStream_lineno (handler : Handler σ) (user : σ) (lines : List Text) :
    (parseStream handler user lines).lineno = lines.length := by
  induction lines using List.reverseRecOn with
  | nil => rfl
  | append_singleton lines buffer ih => simp [parseStream_snoc, line_lineno, ih]

def Sound (handler : Handler σ) (user : σ) (lines : List Text) : Prop :=
  ∀ before buffer after, lines = before ++ buffer :: after →
    (parseStream handler user before).rejects handler buffer = false

theorem Sound.snoc {handler : Handler σ} {user : σ} {lines : List Text} {buffer : Text}
    (h : Sound handler user lines)
    (hlast : (parseStream handler user lines).rejects handler buffer = false) :
    Sound handler user (lines ++ [buffer]) := by
  intro before other after hsplit
  rcases List.eq_nil_or_concat after with rfl | ⟨after, last, rfl⟩
  · obtain ⟨rfl, hother⟩ := List.append_inj' hsplit rfl
    cases hother
    exact hlast
  · rw [List.concat_eq_append, ← List.cons_append, ← List.append_assoc] at hsplit
    exact h before other after (List.append_inj' hsplit rfl).1

/-- `error` is the number of the first line that is rejected, and zero where
there is none. -/
structure FirstError (handler : Handler σ) (user : σ) (lines : List Text) (error : Nat) : Prop where
  none : error = 0 → Sound handler user lines
  first : error ≠ 0 → ∃ before buffer after, lines = before ++ buffer :: after ∧
    error = before.length + 1 ∧ Sound handler user before ∧
      (parseStream handler user before).rejects handler buffer = true

theorem firstError (handler : Handler σ) (user : σ) (lines : List Text) :
    FirstError handler user lines (parseStream handler user lines).error := by
  induction lines using List.reverseRecOn with
  | nil =>
    refine ⟨fun _ before buffer after hsplit => ?_, fun herror => absurd rfl herror⟩
    cases before <;> cases hsplit
  | append_singleton lines buffer ih =>
    rw [parseStream_snoc, line_error, parseStream_lineno]
    split
    · rename_i hrejected
      exact ⟨fun herror => absurd herror (Nat.succ_ne_zero _), fun _ =>
        ⟨lines, buffer, [], rfl, rfl, ih.none hrejected.1, hrejected.2⟩⟩
    · rename_i haccepted
      refine ⟨fun herror => (ih.none herror).snoc ?_, fun herror => ?_⟩
      · simpa [herror] using haccepted
      · obtain ⟨before, other, after, rfl, hnumber, hsound, hrejected⟩ := ih.first herror
        exact ⟨before, other, after ++ [buffer], by simp, hnumber, hsound, hrejected⟩

def Progress.clear (s : Progress σ) : Progress σ := { s with error := 0 }

theorem fail_clear (s : Progress σ) : s.fail.clear = s.clear := by
  unfold Progress.fail
  split <;> rfl

theorem call_clear (handler : Handler σ) (s : Progress σ) (name value : Text) :
    (s.call handler name value).clear = (s.clear.call handler name value).clear := by
  unfold Progress.call
  have hsame : (handler s.clear.user s.clear.heading name value).2 =
      (handler s.user s.heading name value).2 := rfl
  by_cases hok : (handler s.user s.heading name value).2 = true
  · simp only [hsame, hok, if_true]
    rfl
  · simp only [hsame, hok, Bool.false_eq_true, if_false, fail_clear]
    rfl

theorem line_clear (handler : Handler σ) (s : Progress σ) (buffer : Text) :
    (s.line handler buffer).clear = (s.clear.line handler buffer).clear := by
  rw [Progress.line, Progress.line, show s.clear.lineno = s.lineno from rfl,
    show s.clear.prevName = s.prevName from rfl]
  cases readLine (s.lineno + 1) s.prevName buffer with
  | nothing | header name => rfl
  | continued value => exact call_clear handler s.count s.prevName value
  | pair name value => exact call_clear handler _ name value
  | bad => rw [Progress.take, Progress.take, fail_clear, fail_clear]; rfl

theorem foldl_clear (handler : Handler σ) {s r : Progress σ} (h : s.clear = r.clear)
    (lines : List Text) :
    (lines.foldl (Progress.line handler) s).clear =
      (lines.foldl (Progress.line handler) r).clear := by
  induction lines generalizing s r with
  | nil => exact h
  | cons buffer lines ih =>
    apply ih
    rw [line_clear, h, ← line_clear]

/-- The error is the number of the first line that is rejected. And a line that
cannot be parsed does no more than that: all else comes out as if it had been
left blank. -/
theorem errors (handler : Handler σ) (user : σ) (lines : List Text) :
    FirstError handler user lines (parseStream handler user lines).error ∧
      ∀ before buffer after, lines = before ++ buffer :: after →
        readLine (before.length + 1) (parseStream handler user before).prevName buffer = .bad →
          (parseStream handler user lines).clear =
            (parseStream handler user (before ++ [] :: after)).clear := by
  refine ⟨firstError handler user lines, ?_⟩
  rintro before buffer after rfl hbad
  have hblank : readLine (before.length + 1) (parseStream handler user before).prevName [] =
      .nothing := readLine_nil _ _
  rw [parseStream, parseStream, List.foldl_append, List.foldl_append, List.foldl_cons,
    List.foldl_cons]
  apply foldl_clear
  rw [← parseStream, Progress.line, Progress.line, parseStream_lineno, hbad, hblank]
  exact fail_clear _

end Zmqlog.Ini.Parse
