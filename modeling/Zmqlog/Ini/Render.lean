import Zmqlog.Ini.Reader

/-! Configurations, how they are written, and that this is how they are read. -/
namespace Zmqlog.Ini.Render
open Scan Parse Accept Reader

structure SectionName where
  text : Text
  heading : Heading text
  uncommented : uncommented false text = true

/-- A name that begins a line as what it is, and that is kept whole for the
lines that continue its value. -/
structure EntryName where
  text : Text
  name : Name text
  fitsName : text.length < maxName
  stripped : rstrip text = text
  uncommented : uncommented false text = true
  begins : ∃ c s, text = c :: s ∧ c ≠ ';' ∧ c ≠ '#' ∧ c ≠ '['
  unmarked : byteOrderMark.isPrefixOf text = false

structure Value where
  text : Text
  plain : Plain text
  stripped : Stripped text
  uncommented : uncommented false text = true

/-- One more line of a value. In it a comment is no comment. -/
structure Continuation where
  text : Text
  plain : Plain text
  stripped : Stripped text
  begins : ∃ c s, text = c :: s ∧ c ≠ ';' ∧ c ≠ '#'
  fits : text.length + 2 < maxLine

structure Entry where
  name : EntryName
  value : Value
  more : List Continuation
  fits : name.text.length + value.text.length + 2 < maxLine

structure Config where
  entries : List Entry
  sections : List (SectionName × List Entry)

def Entry.values (e : Entry) : List Text := e.value.text :: e.more.map Continuation.text

def Entry.calls (heading : Text) (e : Entry) : List Call :=
  e.values.map fun value => ⟨heading, e.name.text, value⟩

def Config.calls (config : Config) : List Call :=
  config.entries.flatMap (Entry.calls []) ++
    config.sections.flatMap fun sect => sect.2.flatMap (Entry.calls sect.1.text)

def SectionName.line (h : SectionName) : Text := '[' :: (h.text ++ [']'])

def Entry.lines (e : Entry) : List Text :=
  (e.name.text ++ '=' :: e.value.text) :: e.more.map fun continuation => ' ' :: continuation.text

def Config.lines (config : Config) : List Text :=
  config.entries.flatMap Entry.lines ++
    config.sections.flatMap fun sect => sect.1.line :: sect.2.flatMap Entry.lines

def ended (line : Text) : Text := line ++ ['\n']

def Config.render (config : Config) : Text := config.lines.flatMap ended

def oneEntry : Config where
  entries := []
  sections := [
    (⟨['a'], ⟨⟨by decide, by decide, by decide⟩, by decide, by decide⟩, rfl⟩,
      [{ name := ⟨['k'], ⟨⟨by decide, by decide, by decide⟩, by decide, by decide, rfl⟩, by decide,
          rfl, rfl, ⟨'k', [], rfl, by decide, by decide, by decide⟩, rfl⟩
         value := ⟨['v'], ⟨by decide, by decide, by decide⟩, ⟨rfl, rfl⟩, rfl⟩
         more := [⟨['w', ' ', ';'], ⟨by decide, by decide, by decide⟩, ⟨rfl, rfl⟩,
          ⟨'w', [' ', ';'], rfl, by decide, by decide⟩, by decide⟩]
         fits := by decide }])]

theorem readLines_line {buffer line rest : Text} (hline : '\n' ∉ line)
    (hfits : buffer.length + line.length + 1 < maxLine) :
    readLines buffer (line ++ '\n' :: rest) = (buffer ++ ended line) :: readLines [] rest := by
  induction line generalizing buffer with
  | nil => exact if_pos (.inl rfl)
  | cons c line ih =>
    rw [List.mem_cons, not_or] at hline
    rw [List.length_cons] at hfits
    have hon : ¬ (c = '\n' ∨ buffer.length + 1 = maxLine - 1) := by
      rw [not_or]
      exact ⟨Ne.symm hline.1, by omega⟩
    rw [List.cons_append, readLines, if_neg hon, ih hline.2 (by simp; omega)]
    simp [ended]

def Fits (line : Text) : Prop := '\n' ∉ line ∧ line.length + 1 < maxLine

theorem readLines_lines {lines : List Text} (h : ∀ line ∈ lines, Fits line) :
    readLines [] (lines.flatMap ended) = lines.map ended := by
  induction lines with
  | nil => rfl
  | cons line lines ih =>
    have hline := h line List.mem_cons_self
    rw [List.flatMap_cons, ended, List.append_assoc, List.singleton_append,
      readLines_line hline.1 (by simpa using hline.2),
      ih fun other hmem => h other (List.mem_cons_of_mem _ hmem)]
    rfl

theorem SectionName.line_fits (h : SectionName) : Fits h.line := by
  have hfits := h.heading.fitsSection
  refine ⟨?_, ?_⟩
  · simpa [line] using h.heading.newline
  · simp only [line, List.length_cons, List.length_append, List.length_nil]
    simp only [maxSection, maxLine] at *
    omega

theorem Entry.lines_fit (e : Entry) : ∀ line ∈ e.lines, Fits line := by
  intro line hmem
  rcases List.mem_cons.mp hmem with rfl | hmem
  · refine ⟨?_, ?_⟩
    · have hname := e.name.name.newline
      have hvalue := e.value.plain.newline
      simp [hname, hvalue]
    · have hfits := e.fits
      simp only [List.length_cons, List.length_append]
      omega
  · obtain ⟨continuation, -, rfl⟩ := List.mem_map.mp hmem
    exact ⟨by simpa using continuation.plain.newline, by simpa using continuation.fits⟩

theorem Config.lines_fit (config : Config) : ∀ line ∈ config.lines, Fits line := by
  intro line hmem
  rcases List.mem_append.mp hmem with hmem | hmem
  · obtain ⟨e, -, hmem⟩ := List.mem_flatMap.mp hmem
    exact e.lines_fit line hmem
  · obtain ⟨sect, -, hmem⟩ := List.mem_flatMap.mp hmem
    rcases List.mem_cons.mp hmem with rfl | hmem
    · exact sect.1.line_fits
    · obtain ⟨e, -, hmem⟩ := List.mem_flatMap.mp hmem
      exact e.lines_fit line hmem

theorem unmarked_append {s t : Text} {c : Char} (h : byteOrderMark.isPrefixOf s = false)
    (hc : c ∉ byteOrderMark) : byteOrderMark.isPrefixOf (s ++ c :: t) = false := by
  rw [← Bool.not_eq_true, List.isPrefixOf_iff_prefix] at h ⊢
  intro hmark
  rcases Nat.lt_or_ge s.length byteOrderMark.length with hlt | hge
  · have hinitial : s ++ [c] <+: s ++ c :: t := ⟨t, by simp⟩
    have hmem := (List.prefix_of_prefix_length_le hinitial hmark (by simp; omega)).subset
    exact hc (hmem (by simp))
  · exact h (List.prefix_of_prefix_length_le hmark (List.prefix_append s (c :: t)) hge)

theorem startsWithMark_ended {line : Text} (h : byteOrderMark.isPrefixOf line = false)
    (lineno : Nat) : startsWithMark lineno (ended line) = false := by
  rw [startsWithMark, ended, unmarked_append h (by decide), Bool.and_false]

theorem takeWhile_ended {line : Text} (h : nul ∉ line) :
    (ended line).takeWhile (· != nul) = ended line := by
  rw [List.takeWhile_eq_self_iff]
  intro c hmem
  rcases List.mem_append.mp hmem with hmem | hmem
  · simpa using fun hc : c = nul => h (hc ▸ hmem)
  · rw [List.mem_singleton.mp hmem]
    decide

section Line
variable {line : Text} (hnul : nul ∉ line) (hmark : byteOrderMark.isPrefixOf line = false)
  (lineno : Nat)
include hnul hmark

theorem content_ended : content lineno (ended line) = rstrip line := by
  simp only [content, takeWhile_ended hnul, startsWithMark_ended hmark, Bool.false_eq_true,
    if_false]
  exact rstrip_snoc (by decide)

theorem indented_ended : indented lineno (ended line) =
    decide ((lskip (rstrip line)).length < (rstrip line).length) := by
  simp only [indented, takeWhile_ended hnul, startsWithMark_ended hmark,
    content_ended hnul hmark, Bool.false_or]

/-- A line with nothing in front of it continues no value. -/
theorem readLine_flush (prevName : Text) (h : Stripped line) :
    readLine lineno prevName (ended line) = .ofStart false line := by
  have hindented : indented lineno (ended line) = false := by
    rw [indented_ended hnul hmark, h.2, h.1]
    simp
  rw [readLine, hindented, content_ended hnul hmark, h.2, h.1, Bool.and_false]

end Line

theorem readLine_heading (h : SectionName) (lineno : Nat) (prevName : Text) :
    readLine lineno prevName (ended h.line) = .header h.text := by
  have hnul : nul ∉ h.line := by
    have htext := h.heading.nul
    simp only [SectionName.line, List.mem_cons, List.mem_append, not_or]
    exact ⟨by decide, htext, by decide, List.not_mem_nil⟩
  have hstripped : Stripped h.line := by
    refine ⟨lskip_cons (by decide), ?_⟩
    rw [SectionName.line, ← List.cons_append, rstrip_append_cons (by decide)]
    rfl
  have hfind : findCharsOrComment [']'] false (h.text ++ [']']) = (h.text, [']']) :=
    find_of_clean (by simpa using fun c hmem (hc : c = ']') => h.heading.bracket (hc ▸ hmem))
      h.uncommented (by simp)
  rw [readLine_flush hnul rfl lineno prevName hstripped, SectionName.line, Line.ofStart, hfind]
  rfl

theorem readLine_pair (name : EntryName) (value : Value) (lineno : Nat) (prevName : Text) :
    readLine lineno prevName (ended (name.text ++ '=' :: value.text)) =
      .pair name.text value.text := by
  obtain ⟨text, hname, hfits, hstripped, huncommented, ⟨c, s, rfl, hc⟩, hmark⟩ := name
  have hnul : nul ∉ c :: s ++ '=' :: value.text := by
    rw [List.mem_append, not_or, List.mem_cons (b := '='), not_or]
    exact ⟨hname.nul, by decide, value.plain.nul⟩
  have hline : Stripped (c :: s ++ '=' :: value.text) := by
    refine ⟨lskip_cons (lskip_head hname.start), ?_⟩
    rw [rstrip_append_cons (by decide), value.stripped.2]
  have hfind : findCharsOrComment ['=', ':'] false (c :: s ++ '=' :: value.text) =
      (c :: s, '=' :: value.text) := by
    refine find_of_clean (fun d hmem => ?_) huncommented (by simp)
    simpa using ⟨fun hd : d = '=' => hname.equals (hd ▸ hmem),
      fun hd : d = ':' => hname.colon (hd ▸ hmem)⟩
  have hvalue : findCharsOrComment [] false (value.text ++ []) = (value.text, []) :=
    find_of_clean (by simp) value.uncommented (by simp)
  rw [List.append_nil] at hvalue
  rw [readLine_flush hnul (unmarked_append hmark (by decide)) lineno prevName hline,
    List.cons_append, Line.ofStart, ← List.cons_append, hfind]
  simp [hc, hvalue, hstripped, value.stripped.1, value.stripped.2]

theorem readLine_continuation (continuation : Continuation) (lineno : Nat) {prevName : Text}
    (h : prevName ≠ []) :
    readLine lineno prevName (ended (' ' :: continuation.text)) = .continued continuation.text := by
  obtain ⟨text, hplain, hstripped, ⟨c, s, rfl, hc⟩, hfits⟩ := continuation
  have hnul : nul ∉ ' ' :: c :: s := by
    rw [List.mem_cons, not_or]
    exact ⟨by decide, hplain.nul⟩
  have hspace : isspace c = false := lskip_head hstripped.1
  have hrstrip : rstrip (' ' :: c :: s) = ' ' :: c :: s := by
    have hcons : rstrip (c :: s) = c :: rstrip s := rstrip_append_cons (s := []) hspace
    calc rstrip (' ' :: c :: s)
      _ = ' ' :: c :: rstrip s := rstrip_append_cons (s := [' ']) hspace
      _ = ' ' :: c :: s := by rw [← hcons, hstripped.2]
  have hlskip : lskip (' ' :: c :: s) = c :: s := hstripped.1
  have hindented : indented lineno (ended (' ' :: c :: s)) = true := by
    rw [indented_ended hnul rfl, hrstrip, hlskip]
    simp
  rw [readLine, hindented, content_ended hnul rfl, hrstrip, hlskip, Line.ofStart]
  simp [h, hc]

universe u
variable {σ : Type u} {handler : Handler σ}

/-- From the one to the other these calls have been made, and no error. -/
structure Adds (handler : Handler σ) (cs : List Call) (s s' : Progress σ) : Prop where
  user : s'.user = made handler s.user cs
  error : s'.error = s.error

structure AddsHere (handler : Handler σ) (cs : List Call) (s s' : Progress σ) : Prop
    extends Adds handler cs s s' where
  heading : s'.heading = s.heading

theorem Adds.trans {cs cs' : List Call} {s s' s'' : Progress σ} (h : Adds handler cs s s')
    (h' : Adds handler cs' s' s'') : Adds handler (cs ++ cs') s s'' :=
  ⟨by rw [h'.user, h.user, made, made, made, List.foldl_append], h'.error.trans h.error⟩

theorem AddsHere.trans {cs cs' : List Call} {s s' s'' : Progress σ} (h : AddsHere handler cs s s')
    (h' : AddsHere handler cs' s' s'') : AddsHere handler (cs ++ cs') s s'' :=
  ⟨h.toAdds.trans h'.toAdds, h'.heading.trans h.heading⟩

def run (handler : Handler σ) (s : Progress σ) (lines : List Text) : Progress σ :=
  (lines.map ended).foldl (Progress.line handler) s

theorem run_append (s : Progress σ) (lines lines' : List Text) :
    run handler s (lines ++ lines') = run handler (run handler s lines) lines' := by
  simp [run]

section Run
variable (hok : ∀ user heading name value, (handler user heading name value).2 = true)
  (s : Progress σ)
include hok

theorem call_of_ok (name value : Text) : s.call handler name value =
    { s with user := (handler s.user s.heading name value).1 } := by
  rw [Progress.call, if_pos (hok _ _ _ _)]

theorem pair_adds (name : EntryName) (value : Value) :
    AddsHere handler [⟨s.heading, name.text, value.text⟩] s
      (s.line handler (ended (name.text ++ '=' :: value.text))) ∧
    (s.line handler (ended (name.text ++ '=' :: value.text))).prevName = name.text := by
  have hname : strncpy0 name.text maxName = name.text :=
    List.take_of_length_le (Nat.le_sub_one_of_lt name.fitsName)
  rw [Progress.line, readLine_pair, Progress.take, call_of_ok hok, hname]
  exact ⟨⟨⟨rfl, rfl⟩, rfl⟩, rfl⟩

theorem continuation_adds (continuation : Continuation) (h : s.prevName ≠ []) :
    AddsHere handler [⟨s.heading, s.prevName, continuation.text⟩] s
      (s.line handler (ended (' ' :: continuation.text))) ∧
    (s.line handler (ended (' ' :: continuation.text))).prevName = s.prevName := by
  rw [Progress.line, readLine_continuation continuation _ h, Progress.take, call_of_ok hok]
  exact ⟨⟨⟨rfl, rfl⟩, rfl⟩, rfl⟩

theorem continuations_add (more : List Continuation) (h : s.prevName ≠ []) :
    AddsHere handler (more.map fun continuation => ⟨s.heading, s.prevName, continuation.text⟩) s
      (run handler s (more.map fun continuation => ' ' :: continuation.text)) := by
  induction more generalizing s with
  | nil => exact ⟨⟨rfl, rfl⟩, rfl⟩
  | cons continuation more ih =>
    obtain ⟨hadds, hprevName⟩ := continuation_adds hok s continuation h
    have htail := ih (s.line handler (ended (' ' :: continuation.text))) (by rwa [hprevName])
    rw [hadds.heading, hprevName] at htail
    exact hadds.trans htail

theorem entry_adds (e : Entry) :
    AddsHere handler (e.calls s.heading) s (run handler s e.lines) := by
  obtain ⟨hadds, hprevName⟩ := pair_adds hok s e.name e.value
  have hsome : e.name.text ≠ [] := by
    obtain ⟨c, t, htext, -⟩ := e.name.begins
    rw [htext]
    exact List.cons_ne_nil c t
  have hmore := continuations_add hok (s.line handler (ended (e.name.text ++ '=' :: e.value.text)))
    e.more (by rwa [hprevName])
  rw [hadds.heading, hprevName] at hmore
  have hcalls : e.calls s.heading = [⟨s.heading, e.name.text, e.value.text⟩] ++
      e.more.map fun continuation => ⟨s.heading, e.name.text, continuation.text⟩ := by
    simp [Entry.calls, Entry.values]
  rw [hcalls]
  exact hadds.trans hmore

theorem entries_add (es : List Entry) :
    AddsHere handler (es.flatMap (Entry.calls s.heading)) s
      (run handler s (es.flatMap Entry.lines)) := by
  induction es generalizing s with
  | nil => exact ⟨⟨rfl, rfl⟩, rfl⟩
  | cons e es ih =>
    have hentry := entry_adds hok s e
    have htail := ih (run handler s e.lines)
    rw [hentry.heading] at htail
    rw [List.flatMap_cons, List.flatMap_cons, run_append]
    exact hentry.trans htail

variable (handler) in
omit hok in
theorem heading_adds (h : SectionName) :
    Adds handler [] s (s.line handler (ended h.line)) ∧
      (s.line handler (ended h.line)).heading = h.text := by
  have hheading : strncpy0 h.text maxSection = h.text :=
    List.take_of_length_le (Nat.le_sub_one_of_lt h.heading.fitsSection)
  rw [Progress.line, readLine_heading, Progress.take, hheading]
  exact ⟨⟨rfl, rfl⟩, rfl⟩

theorem sections_add (sections : List (SectionName × List Entry)) :
    Adds handler (sections.flatMap fun sect => sect.2.flatMap (Entry.calls sect.1.text)) s
      (run handler s (sections.flatMap fun sect => sect.1.line :: sect.2.flatMap Entry.lines)) := by
  induction sections generalizing s with
  | nil => exact ⟨rfl, rfl⟩
  | cons sect sections ih =>
    obtain ⟨hadds, hheading⟩ := heading_adds handler s sect.1
    have hentries := entries_add hok (s.line handler (ended sect.1.line)) sect.2
    rw [hheading] at hentries
    rw [List.flatMap_cons, List.flatMap_cons, run_append]
    exact (hadds.trans hentries.toAdds).trans (ih _)

theorem config_adds (user : σ) (config : Config) :
    Adds handler config.calls ⟨user, [], [], 0, 0⟩ (parseFile handler user config.render) := by
  have hentries := entries_add hok ⟨user, [], [], 0, 0⟩ config.entries
  have hall := hentries.toAdds.trans (sections_add hok _ config.sections)
  rw [← run_append] at hall
  rw [parseFile, Config.render, readLines_lines config.lines_fit]
  exact hall

/-- A configuration that is written out and read again makes its own calls and
no error, for every handler that returns none. -/
theorem round_trip (user : σ) (config : Config) :
    (parseFile handler user config.render).user = made handler user config.calls ∧
      (parseFile handler user config.render).error = 0 :=
  ⟨(config_adds hok user config).user, (config_adds hok user config).error⟩

end Run

theorem round_trip_oneEntry :
    (∀ calls heading name value, (record calls heading name value).2 = true) ∧
      (parseFile record [] oneEntry.render).user =
        [⟨['a'], ['k'], ['v']⟩, ⟨['a'], ['k'], ['w', ' ', ';']⟩] :=
  ⟨fun _ _ _ _ => rfl, (round_trip (fun _ _ _ _ => rfl) [] oneEntry).1⟩

def Config.settings (config : Config) : List (Text × Entry) :=
  config.entries.map ([], ·) ++
    config.sections.flatMap fun sect => sect.2.map (sect.1.text, ·)

theorem Config.calls_eq (config : Config) :
    config.calls = config.settings.flatMap fun p => p.2.calls p.1 := by
  simp [calls, settings, List.flatMap_append, List.flatMap_map, List.flatMap_assoc]

def keyOf (p : Text × Entry) : Text × Text := (lower p.1, lower p.2.name.text)

/-- No two entries of a section have the same name but for the case. -/
def Config.Distinct (config : Config) : Prop := (config.settings.map keyOf).Nodup

def Config.lookup (config : Config) (heading name : Text) : Option Text :=
  (config.settings.find? fun p => keyOf p = (lower heading, lower name)).map fun p =>
    joined p.2.values

section Lookup
variable (heading name : Text)

theorem valuesOf_append (cs cs' : List Call) :
    valuesOf (cs ++ cs') heading name = valuesOf cs heading name ++ valuesOf cs' heading name := by
  simp [valuesOf]

theorem valuesOf_entry (p : Text × Entry) : valuesOf (p.2.calls p.1) heading name =
    if keyOf p = (lower heading, lower name) then p.2.values else [] := by
  have hkey : keyOf p = (lower heading, lower name) ↔
      lower p.1 = lower heading ∧ lower p.2.name.text = lower name := Prod.ext_iff
  unfold valuesOf Entry.calls
  by_cases h : keyOf p = (lower heading, lower name)
  · rw [if_pos h, List.filter_eq_self.mpr, List.map_map]
    · exact List.map_id _
    · intro c hmem
      obtain ⟨value, -, rfl⟩ := List.mem_map.mp hmem
      exact decide_eq_true (hkey.mp h)
  · rw [if_neg h, List.filter_eq_nil_iff.mpr, List.map_nil]
    intro c hmem
    obtain ⟨value, -, rfl⟩ := List.mem_map.mp hmem
    simpa using fun hheading hname => h (hkey.mpr ⟨hheading, hname⟩)

theorem valuesOf_settings {settings : List (Text × Entry)} (h : (settings.map keyOf).Nodup) :
    valuesOf (settings.flatMap fun p => p.2.calls p.1) heading name =
      ((settings.find? fun p => keyOf p = (lower heading, lower name)).map
        fun p => p.2.values).getD [] := by
  induction settings with
  | nil => rfl
  | cons p settings ih =>
    rw [List.map_cons, List.nodup_cons] at h
    rw [List.flatMap_cons, valuesOf_append, valuesOf_entry, ih h.2]
    by_cases hp : keyOf p = (lower heading, lower name)
    · have hrest : settings.find? (fun q => keyOf q = (lower heading, lower name)) = none := by
        rw [List.find?_eq_none]
        intro q hmem hq
        exact h.1 (hp.trans (of_decide_eq_true hq).symm ▸ List.mem_map_of_mem hmem)
      simp [hp, hrest]
    · simp [hp]

end Lookup

/-- What a configuration sets is found under its section and name, in whatever
case they are asked for, and under a name without a `=` nothing else is. -/
theorem get_render (config : Config) (hdistinct : config.Distinct)
    (heading name defaultValue : Text) (hname : '=' ∉ name) :
    (INIReader.new (some config.render)).error = 0 ∧
      (INIReader.new (some config.render)).get heading name defaultValue =
        (config.lookup heading name).getD defaultValue := by
  have hadds : Adds valueHandler config.calls ⟨fun _ => none, [], [], 0, 0⟩
      (parseFile valueHandler (fun _ => none) config.render) :=
    config_adds (fun _ _ _ _ => rfl) _ config
  have hvalues : (INIReader.new (some config.render)).values =
      made valueHandler (fun _ => none) config.calls := hadds.user
  have hnames : ∀ c ∈ config.calls, '=' ∉ c.name := by
    rw [config.calls_eq]
    intro c hmem
    obtain ⟨p, -, hmem⟩ := List.mem_flatMap.mp hmem
    obtain ⟨value, -, rfl⟩ := List.mem_map.mp hmem
    exact p.2.name.name.equals
  refine ⟨congrArg Nat.cast hadds.error, ?_⟩
  rw [INIReader.get, hvalues, get_made hnames hname, config.calls_eq,
    valuesOf_settings heading name hdistinct, Config.lookup]
  cases config.settings.find? fun p => keyOf p = (lower heading, lower name) with
  | none => rfl
  | some p => exact if_neg (List.cons_ne_nil _ _)

theorem get_render_oneEntry :
    oneEntry.Distinct ∧ '=' ∉ ['K'] ∧
      (INIReader.new (some oneEntry.render)).get ['A'] ['K'] [] = ['v', '\n', 'w', ' ', ';'] :=
  ⟨by unfold Config.Distinct; decide, by decide, (get_render oneEntry
    (by unfold Config.Distinct; decide) ['A'] ['K'] [] (by decide)).2⟩

end Zmqlog.Ini.Render
