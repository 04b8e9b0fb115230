import Mathlib.Data.List.TakeDrop
import Zmqlog.Ini.Parse

/-! What the handler can be called with, whatever stands in the file. -/
namespace Zmqlog.Ini.Accept
open Scan Parse

structure Read (buffer : Text) : Prop where
  nonempty : buffer ≠ []
  fits : buffer.length < maxLine
  oneLine : '\n' ∉ buffer.dropLast

theorem readLines_read (buffer s : Text) (hline : '\n' ∉ buffer)
    (hfits : buffer.length + 1 < maxLine) : ∀ line ∈ readLines buffer s, Read line := by
  fun_induction readLines buffer s with
  | case1 => simp
  | case2 buffer hnonempty =>
    intro line hmem
    rw [List.mem_singleton.mp hmem]
    exact ⟨hnonempty, by omega, fun h => hline (List.dropLast_subset _ h)⟩
  | case3 buffer c s hstop ih =>
    intro line hmem
    rcases List.mem_cons.mp hmem with rfl | hmem
    · exact ⟨by simp, by simpa using hfits, by simpa using hline⟩
    · exact ih (by simp) (by decide) line hmem
  | case4 buffer c s hstop ih =>
    rw [not_or] at hstop
    refine ih ?_ ?_
    · rw [List.mem_append, List.mem_singleton, not_or]
      exact ⟨hline, Ne.symm hstop.1⟩
    · rw [List.length_append, List.length_singleton]
      omega

structure Plain (s : Text) : Prop where
  newline : '\n' ∉ s
  nul : nul ∉ s
  fits : s.length < maxLine

theorem plain_nil : Plain [] := ⟨List.not_mem_nil, List.not_mem_nil, by decide⟩

theorem Plain.of_sublist {s t : Text} (h : Plain t) (hs : s.Sublist t) : Plain s :=
  ⟨fun hmem => h.newline (hs.subset hmem), fun hmem => h.nul (hs.subset hmem),
    lt_of_le_of_lt hs.length_le h.fits⟩

theorem newline_rstrip {s : Text} (h : '\n' ∉ s.dropLast) : '\n' ∉ rstrip s := by
  rcases List.eq_nil_or_concat s with rfl | ⟨s, c, rfl⟩
  · simp [rstrip]
  · rw [List.concat_eq_append] at h ⊢
    rw [List.dropLast_concat] at h
    by_cases hc : isspace c = true
    · rw [rstrip_snoc hc]
      exact fun hmem => h ((rstrip_sublist s).subset hmem)
    · rw [rstrip, List.rdropWhile_concat_neg _ _ _ hc, List.mem_append, List.mem_singleton, not_or]
      refine ⟨h, ?_⟩
      rintro rfl
      exact hc (by decide)

theorem dropLast_of_prefix {s t : Text} (h : s <+: t) (hline : '\n' ∉ t.dropLast) :
    '\n' ∉ s.dropLast := by
  obtain ⟨rest, rfl⟩ := h
  rcases List.eq_nil_or_concat rest with rfl | ⟨rest, c, rfl⟩
  · simpa using hline
  · rw [List.concat_eq_append, ← List.append_assoc, List.dropLast_concat, List.mem_append,
      not_or] at hline
    exact fun hmem => hline.1 (List.dropLast_subset _ hmem)

theorem content_plain {buffer : Text} (h : Read buffer) (lineno : Nat) :
    Plain (content lineno buffer) := by
  have hstring : buffer.takeWhile (· != nul) <+: buffer := List.takeWhile_prefix _
  have hnul : nul ∉ buffer.takeWhile (· != nul) := fun hmem => by
    simpa using List.mem_takeWhile_imp hmem
  have hline := dropLast_of_prefix hstring h.oneLine
  have hplain (n : Nat) : Plain (rstrip ((buffer.takeWhile (· != nul)).drop n)) := by
    have hdrop := List.drop_sublist n (buffer.takeWhile (· != nul))
    have hsublist := (rstrip_sublist _).trans hdrop
    refine ⟨newline_rstrip fun hmem => hline ?_, fun hmem => hnul (hsublist.subset hmem), ?_⟩
    · rw [List.dropLast_drop_eq_drop_dropLast] at hmem
      exact (List.drop_sublist n _).subset hmem
    · exact lt_of_le_of_lt (hsublist.length_le.trans hstring.length_le) h.fits
  unfold content
  simp only []
  split
  · exact hplain 3
  · exact hplain 0

structure Heading (s : Text) : Prop extends Plain s where
  bracket : ']' ∉ s
  fitsSection : s.length < maxSection

structure Name (s : Text) : Prop extends Plain s where
  equals : '=' ∉ s
  colon : ':' ∉ s
  start : lskip s = s

theorem heading_nil : Heading [] := ⟨plain_nil, List.not_mem_nil, by decide⟩

theorem name_nil : Name [] := ⟨plain_nil, List.not_mem_nil, List.not_mem_nil, rfl⟩

/-- A call that can be made. A name that has been cut off for the lines which
continue a value can end in whitespace, and one that comes with its own value
need not fit `MAX_NAME`. -/
structure Accepted (c : Call) : Prop where
  heading : Heading c.heading
  name : Name c.name
  value : Plain c.value ∧ Stripped c.value

theorem strncpy0_sublist (s : Text) (size : Nat) : (strncpy0 s size).Sublist s :=
  List.take_sublist _ s

theorem strncpy0_length (s : Text) {size : Nat} (h : 0 < size) : (strncpy0 s size).length < size :=
  lt_of_le_of_lt (List.length_take_le _ s) (Nat.sub_lt h Nat.one_pos)

theorem Name.strncpy0 {s : Text} (h : Name s) (size : Nat) : Name (strncpy0 s size) := by
  have hsublist := strncpy0_sublist s size
  refine ⟨h.toPlain.of_sublist hsublist, fun hmem => h.equals (hsublist.subset hmem),
    fun hmem => h.colon (hsublist.subset hmem), lskip_initial (t := s) ?_⟩
  rw [h.start]
  exact List.take_prefix _ s

theorem Heading.strncpy0 {s : Text} (h : Plain s) (hbracket : ']' ∉ s) :
    Heading (strncpy0 s maxSection) :=
  ⟨h.of_sublist (strncpy0_sublist s _), fun hmem => hbracket ((strncpy0_sublist s _).subset hmem),
    strncpy0_length s (by decide)⟩

/-- What holds between two lines. -/
structure Kept (s : Progress (List Call)) : Prop where
  heading : Heading s.heading
  prevName : Name s.prevName
  calls : ∀ c ∈ s.user, Accepted c

theorem Kept.call {s : Progress (List Call)} (h : Kept s) {name value : Text} (hname : Name name)
    (hvalue : Plain value ∧ Stripped value) : Kept (s.call record name value) := by
  refine ⟨by simpa using h.heading, by simpa using h.prevName, fun c hmem => ?_⟩
  rw [call_user] at hmem
  rcases List.mem_append.mp hmem with hmem | hmem
  · exact h.calls c hmem
  · rw [List.mem_singleton.mp hmem]
    exact ⟨h.heading, hname, hvalue⟩

theorem Kept.line {s : Progress (List Call)} (h : Kept s) {buffer : Text} (hread : Read buffer) :
    Kept (s.line record buffer) := by
  have hcount : Kept s.count := ⟨h.heading, h.prevName, h.calls⟩
  have hplain := (content_plain hread (s.lineno + 1)).of_sublist (lskip_sublist _)
  have hshape : Shape (lskip (content (s.lineno + 1) buffer))
      (readLine (s.lineno + 1) s.prevName buffer) := shape _ _
  rw [Progress.line]
  generalize hline : readLine (s.lineno + 1) s.prevName buffer = line at hshape
  cases hshape with
  | nothing => exact hcount
  | bad => exact ⟨by simpa [Progress.take] using hcount.heading,
      by simpa [Progress.take] using hcount.prevName, by simpa [Progress.take] using hcount.calls⟩
  | continued => exact hcount.call h.prevName ⟨hplain, stripped_lskip_rstrip _⟩
  | header name rest hs hbracket =>
    rw [hs] at hplain
    have hname : name.Sublist ('[' :: (name ++ ']' :: rest)) :=
      (List.sublist_append_left name _).trans (List.sublist_cons_self _ _)
    exact ⟨Heading.strncpy0 (hplain.of_sublist hname) hbracket,
      name_nil, h.calls⟩
  | pair name value stop rest hs hstops =>
    have hpair : Name (rstrip name) := by
      have hinitial : rstrip name <+: lskip (content (s.lineno + 1) buffer) :=
        (List.rdropWhile_prefix isspace name).trans (by rw [hs]; exact List.prefix_append _ _)
      exact ⟨hplain.of_sublist hinitial.sublist,
        fun hmem => hstops.1 ((rstrip_sublist name).subset hmem),
        fun hmem => hstops.2 ((rstrip_sublist name).subset hmem), lskip_initial hinitial⟩
    have hvalue : (rstrip (lskip value)).Sublist (lskip (content (s.lineno + 1) buffer)) := by
      refine ((rstrip_sublist _).trans (lskip_sublist _)).trans ?_
      rw [hs]
      exact (List.sublist_append_left value rest).trans
        ((List.sublist_cons_self stop _).trans (List.sublist_append_right name _))
    have hnamed : Kept { s.count with prevName := strncpy0 (rstrip name) maxName } :=
      ⟨h.heading, hpair.strncpy0 maxName, h.calls⟩
    exact hnamed.call hpair ⟨hplain.of_sublist hvalue, stripped_rstrip_lskip value⟩

theorem kept {lines : List Text} (hread : ∀ buffer ∈ lines, Read buffer) :
    Kept (parseStream record [] lines) := by
  induction lines using List.reverseRecOn with
  | nil =>
    exact ⟨heading_nil, name_nil, fun _ hmem => absurd hmem List.not_mem_nil⟩
  | append_singleton lines buffer ih =>
    rw [parseStream_snoc]
    exact (ih fun other hmem => hread other (List.mem_append_left _ hmem)).line
      (hread buffer (by simp))

theorem kept_file (content : Text) : Kept (parseFile record [] content) :=
  kept (readLines_read [] content List.not_mem_nil (by decide))

/-- Whatever the file holds, all calls of the handler are well formed. -/
theorem calls_accepted (content : Text) : ∀ c ∈ calls (readLines [] content), Accepted c :=
  (kept_file content).calls

theorem calls_accepted_marked :
    (⟨[], ['k'], ['v']⟩ : Call) ∈ calls (readLines []
      (byteOrderMark ++ ['k', ' ', ':', ' ', 'v', ' ', ';', 'c', '\n'])) ∧
      Accepted ⟨[], ['k'], ['v']⟩ :=
  ⟨by decide, calls_accepted (byteOrderMark ++ ['k', ' ', ':', ' ', 'v', ' ', ';', 'c', '\n']) _
    (by decide)⟩

end Zmqlog.Ini.Accept
