import PageLint.Proofs.Diagnostic.Excerpt
import PageLint.Proofs.Diagnostic.OneLine

/-!
# Colours

In colour the name of a severity and the underlines are put between two escape sequences each,
one that selects the colour and one that resets it. Nothing else changes: without its escape
sequences a coloured text is the plain one.
-/

namespace PageLint

/-! ## Escape sequences -/

namespace Escape

/-- The digits of the escape sequence that `cs` starts with, and what follows the sequence: an
escape character, a bracket, digits, and an `m`. -/
def sequence? : List Char → Option (List Char × List Char)
  | '\x1b' :: '[' :: cs =>
    match cs.dropWhile Char.isDigit with
    | 'm' :: rest =>
      if cs.takeWhile Char.isDigit = [] then none else some (cs.takeWhile Char.isDigit, rest)
    | _ => none
  | _ => none

theorem length_lt_of_sequence? {cs digits rest : List Char}
    (h : sequence? cs = some (digits, rest)) : rest.length < cs.length := by
  unfold sequence? at h
  split at h
  · next cs =>
    split at h
    · next rest' heq =>
      have hle := (List.dropWhile_suffix (l := cs) Char.isDigit).length_le
      rw [heq, List.length_cons] at hle
      split at h
      · cases h
      · cases h
        simp only [List.length_cons]
        omega
    · cases h
  · cases h

/-- A text cut at its escape sequences: what is before the first of them, and the digits of each
with what is behind it, up to the next. -/
def cut (cs : List Char) : List Char × List (List Char × List Char) :=
  match h : sequence? cs with
  | some (digits, rest) =>
    have := length_lt_of_sequence? h
    let (behind, more) := cut rest
    ([], (digits, behind) :: more)
  | none =>
    match cs with
    | [] => ([], [])
    | c :: cs =>
      let (before, more) := cut cs
      (c :: before, more)
termination_by cs.length

/-- A text without its escape sequences. -/
def strip (s : String) : String :=
  String.ofList ((cut s.toList).1 ++ (cut s.toList).2.flatMap (·.2))

/-- The escape sequences of a text, as the digits of each and the text behind it, up to the
next. -/
def sequences (s : String) : List (String × String) :=
  (cut s.toList).2.map fun (digits, behind) => (String.ofList digits, String.ofList behind)

/-- The text has no escape character. -/
def Free (s : String) : Prop := '\x1b' ∉ s.toList

instance (s : String) : Decidable (Free s) := inferInstanceAs (Decidable (¬ _))

@[simp] theorem free_append {s t : String} : Free (s ++ t) ↔ Free s ∧ Free t := by
  simp [Free, String.toList_append]

theorem sequence?_cons_of_ne {c : Char} (h : c ≠ '\x1b') (cs : List Char) :
    sequence? (c :: cs) = none := by
  unfold sequence?
  split
  · next heq => exact absurd (List.cons.inj heq).1 h
  · rfl

theorem cut_nil : cut [] = ([], []) := by
  rw [cut]
  split
  · next heq => cases heq
  · rfl

theorem cut_cons_of_ne {c : Char} (h : c ≠ '\x1b') (cs : List Char) :
    cut (c :: cs) = (c :: (cut cs).1, (cut cs).2) := by
  have hnone := sequence?_cons_of_ne h cs
  rw [cut]
  split
  · next heq => rw [hnone] at heq; cases heq
  · rfl

theorem cut_of_sequence? {cs digits rest : List Char} (h : sequence? cs = some (digits, rest)) :
    cut cs = ([], (digits, (cut rest).1) :: (cut rest).2) := by
  rw [cut]
  split
  · next heq =>
    rw [h] at heq
    cases heq
    rfl
  · next heq => rw [h] at heq; cases heq

theorem cut_append {cs : List Char} (h : '\x1b' ∉ cs) (rest : List Char) :
    cut (cs ++ rest) = (cs ++ (cut rest).1, (cut rest).2) := by
  induction cs with
  | nil => rfl
  | cons c cs ih =>
    rw [List.mem_cons, not_or] at h
    rw [List.cons_append, cut_cons_of_ne (Ne.symm h.1), ih h.2, List.cons_append]

/-- An escape sequence ends what is before it. -/
theorem cut_sequence {digits : List Char} (hne : digits ≠ []) (hdigits : ∀ c ∈ digits, c.isDigit)
    (rest : List Char) : cut ('\x1b' :: '[' :: (digits ++ 'm' :: rest)) =
      ([], (digits, (cut rest).1) :: (cut rest).2) := by
  have hdrop : (digits ++ 'm' :: rest).dropWhile Char.isDigit = 'm' :: rest := by
    rw [List.dropWhile_append_of_pos hdigits]
    rfl
  have htake : (digits ++ 'm' :: rest).takeWhile Char.isDigit = digits := by
    rw [List.takeWhile_append_of_pos hdigits]
    exact List.append_nil _
  apply cut_of_sequence?
  simp only [sequence?, hdrop, htake, if_neg hne]

theorem strip_empty : strip "" = "" := by
  rw [strip, String.toList_empty, cut_nil]
  rfl

theorem sequences_empty : sequences "" = [] := by
  rw [sequences, String.toList_empty, cut_nil]
  rfl

theorem strip_append {s : String} (h : Free s) (t : String) : strip (s ++ t) = s ++ strip t := by
  rw [strip, String.toList_append, cut_append h, List.append_assoc, String.ofList_append,
    String.ofList_toList]
  rfl

theorem sequences_append {s : String} (h : Free s) (t : String) :
    sequences (s ++ t) = sequences t := by
  rw [sequences, String.toList_append, cut_append h]
  rfl

theorem cut_paint (severity : Severity) {s : String} (h : Free s) (rest : List Char) :
    cut ((severity.paint s).toList ++ rest) =
      ([], ((toString severity.colour).toList, s.toList) :: (['0'], (cut rest).1) ::
        (cut rest).2) := by
  have hne : (toString severity.colour).toList ≠ [] := by
    cases severity <;> decide
  have hpaint : (severity.paint s).toList ++ rest =
      '\x1b' :: '[' :: ((toString severity.colour).toList ++ 'm' ::
        (s.toList ++ '\x1b' :: '[' :: (['0'] ++ 'm' :: rest))) := by
    change ("\x1b[" ++ toString severity.colour ++ "m" ++ s ++ "\x1b[0m").toList ++ rest = _
    simp only [String.toList_append, List.append_assoc]
    rfl
  rw [hpaint, cut_sequence hne fun _ => Text.isDigit_of_mem_toString, cut_append h,
    cut_sequence (List.cons_ne_nil _ _) (List.forall_mem_singleton.mpr rfl), List.append_nil]

theorem strip_paint_append (severity : Severity) {s : String} (h : Free s) (t : String) :
    strip (severity.paint s ++ t) = s ++ strip t := by
  rw [strip, String.toList_append, cut_paint severity h, strip]
  simp [String.ofList_append]

/-- What is painted is between a sequence that selects the colour and one that resets it. -/
theorem exists_sequences_paint_append (severity : Severity) {s : String} (h : Free s) (t : String) :
    ∃ behind, sequences (severity.paint s ++ t) =
      (toString severity.colour, s) :: ("0", behind) :: sequences t := by
  refine ⟨String.ofList (cut t.toList).1, ?_⟩
  rw [sequences, String.toList_append, cut_paint severity h, List.map_cons, List.map_cons]
  dsimp only
  rw [String.ofList_toList, String.ofList_toList]
  rfl

end Escape

/-! ## What is painted -/

/-- A part of what is printed. -/
inductive Part where
  | text (s : String)
  /-- A text in the colour of a severity, if there are colours. -/
  | painted (s : String)

namespace Part

/-- What the part says. -/
def content : Part → String
  | text s => s
  | painted s => s

def painted? : Part → Option String
  | text _ => none
  | painted s => some s

def write (severity : Severity) (color : Bool) : Part → String
  | text s => s
  | painted s => if color then severity.paint s else s

/-- Parts as they are printed, one after the other. -/
def writeAll (severity : Severity) (color : Bool) (parts : List Part) : String :=
  String.join (parts.map (write severity color))

theorem writeAll_cons (severity : Severity) (color : Bool) (part : Part) (parts : List Part) :
    writeAll severity color (part :: parts) =
      part.write severity color ++ writeAll severity color parts := by
  rw [writeAll, List.map_cons, String.join_cons]
  rfl

theorem writeAll_append (severity : Severity) (color : Bool) (parts parts' : List Part) :
    writeAll severity color (parts ++ parts') =
      writeAll severity color parts ++ writeAll severity color parts' := by
  rw [writeAll, List.map_append, String.join_append]
  rfl

theorem strip_writeAll (severity : Severity) {parts : List Part}
    (h : ∀ part ∈ parts, Escape.Free part.content) :
    Escape.strip (writeAll severity true parts) = writeAll severity false parts := by
  induction parts with
  | nil => exact Escape.strip_empty
  | cons part parts ih =>
    obtain ⟨hpart, hparts⟩ := List.forall_mem_cons.mp h
    rw [writeAll_cons, writeAll_cons, ← ih hparts]
    cases part with
    | text s => exact Escape.strip_append hpart _
    | painted s => exact Escape.strip_paint_append severity hpart _

/-- There are two escape sequences for each part that is painted, in the order of the parts: one
that selects the colour, with the part behind it, and one that resets it. -/
theorem sequences_writeAll (severity : Severity) {parts : List Part}
    (h : ∀ part ∈ parts, Escape.Free part.content) :
    (Escape.sequences (writeAll severity true parts)).map (·.1) =
        (parts.filterMap painted?).flatMap (fun _ => [toString severity.colour, "0"]) ∧
      ((Escape.sequences (writeAll severity true parts)).filter (·.1 ≠ "0")).map (·.2) =
        parts.filterMap painted? := by
  induction parts with
  | nil =>
    change (Escape.sequences "").map _ = [] ∧ ((Escape.sequences "").filter _).map _ = []
    rw [Escape.sequences_empty]
    exact ⟨rfl, rfl⟩
  | cons part parts ih =>
    obtain ⟨hpart, hparts⟩ := List.forall_mem_cons.mp h
    obtain ⟨hdigits, hbehind⟩ := ih hparts
    rw [writeAll_cons]
    cases part with
    | text s =>
      have hs : Escape.Free s := hpart
      rw [write, Escape.sequences_append hs]
      exact ⟨hdigits, hbehind⟩
    | painted s =>
      have hs : Escape.Free s := hpart
      have hcolour : toString severity.colour ≠ "0" := by
        cases severity <;> decide
      obtain ⟨behind, hsequences⟩ :=
        Escape.exists_sequences_paint_append severity hs (writeAll severity true parts)
      rw [write, if_pos rfl, hsequences]
      constructor
      · rw [List.map_cons, List.map_cons, hdigits]
        rfl
      · rw [List.filter_cons_of_pos (by simpa using hcolour), List.filter_cons_of_neg (by simp),
          List.map_cons, hbehind]
        rfl

end Part

theorem Text.append_intercalate (sep : String) {ss : List String} (h : ss ≠ []) :
    sep ++ sep.intercalate ss = String.join (ss.map (sep ++ ·)) := by
  induction ss with
  | nil => exact absurd rfl h
  | cons s ss ih =>
    cases ss with
    | nil => simp [String.join_cons]
    | cons s' ss =>
      rw [String.intercalate_cons_cons, List.map_cons, String.join_cons,
        ← ih (List.cons_ne_nil _ _)]
      simp only [String.append_assoc]

namespace Warning

/-- What is said of a warning before its severity. -/
def lead (w : Warning) : String :=
  match w.range with
  | some range => s!"{range.file}({range.start}) "
  | none => Printer.missingRangeNotice w.code

/-- The parts of what is printed in front of the summary. -/
def excerptParts (load : Loader) (w : Warning) : List Part :=
  if w.excerpt load = [] then []
  else [.text "\n"] ++ (w.excerpt load).flatMap (fun (line, marks) =>
    [.text ("\n" ++ line ++ "\n"), .painted marks]) ++ [.text "\n\n"]

/-- The parts of what is printed of a warning. -/
def parts (load : Loader) (verbosity : Verbosity) (w : Warning) : List Part :=
  (if verbosity = .full then w.excerptParts load else []) ++
    [.text w.lead, .painted w.severity.name, .text (" [" ++ w.code ++ "] - " ++ w.message ++ "\n")]

/-- The underlines of the excerpt are painted, and the name of the severity. -/
theorem filterMap_painted?_parts (load : Loader) (verbosity : Verbosity) (w : Warning) :
    (w.parts load verbosity).filterMap Part.painted? =
      (if verbosity = .full then (w.excerpt load).map (·.2) else []) ++ [w.severity.name] := by
  have hexcerpt : (w.excerptParts load).filterMap Part.painted? = (w.excerpt load).map (·.2) := by
    unfold excerptParts
    split
    · next hnil => simp [hnil]
    · rw [List.filterMap_append, List.filterMap_append, List.filterMap_flatMap]
      change [] ++ (w.excerpt load).flatMap (fun entry => [entry.2]) ++ [] = _
      rw [List.nil_append, List.append_nil, List.map_eq_flatMap]
  unfold parts
  split
  · rw [List.filterMap_append, hexcerpt]
    rfl
  · rfl

end Warning

namespace Printer

variable {printer : Printer}

/-- The lines of an excerpt and their underlines, each behind a line feed, in parts. -/
theorem append_excerptText {w : Warning} (h : w.excerpt printer.load ≠ []) :
    "\n" ++ printer.excerptText w = Part.writeAll w.severity printer.style.color
      ((w.excerpt printer.load).flatMap fun (line, marks) =>
        [.text ("\n" ++ line ++ "\n"), .painted marks]) := by
  have hne : (w.excerpt printer.load).flatMap (fun (line, marks) =>
      [line, printer.paint w.severity marks]) ≠ [] := by
    obtain ⟨entry, excerpt, hcons⟩ := List.exists_cons_of_ne_nil h
    rw [hcons]
    exact List.cons_ne_nil _ _
  -- as every line and every underline is behind a line feed now, the entries can be taken in turn
  rw [excerptText, Text.append_intercalate "\n" hne]
  clear h hne
  induction w.excerpt printer.load with
  | nil => rfl
  | cons entry excerpt ih =>
    obtain ⟨line, marks⟩ := entry
    have hentry : "\n" ++ line ++ ("\n" ++ printer.paint w.severity marks) =
        Part.writeAll w.severity printer.style.color
          [.text ("\n" ++ line ++ "\n"), .painted marks] := by
      simp [Part.writeAll, Part.write, String.join_cons, String.append_assoc, paint]
    rw [List.flatMap_cons, List.flatMap_cons, List.map_append, String.join_append, ih,
      Part.writeAll_append, ← hentry]
    simp [String.join_cons]

theorem sourceBlock_eq_writeAll (hfull : printer.style.verbosity = .full) (w : Warning) :
    printer.sourceBlock w =
      Part.writeAll w.severity printer.style.color (w.excerptParts printer.load) := by
  rw [sourceBlock_full hfull, Warning.excerptParts]
  by_cases hnil : w.excerpt printer.load = []
  · rw [if_pos hnil, if_pos hnil]
    rfl
  · have hlead : "\n\n" ++ printer.excerptText w = "\n" ++ ("\n" ++ printer.excerptText w) := by
      rw [← String.append_assoc]
      rfl
    rw [if_neg hnil, if_neg hnil, Part.writeAll_append, Part.writeAll_append,
      ← append_excerptText hnil, hlead]
    simp [Part.writeAll, Part.write, String.join_cons]

/-- With colours and without, the same parts are printed. -/
theorem render_eq_writeAll (printer : Printer) (w : Warning) : printer.render w =
    Part.writeAll w.severity printer.style.color
      (w.parts printer.load printer.style.verbosity) := by
  have hsummary : (if w.range = none then missingRangeNotice w.code else "") ++
      printer.summary w ++ "\n" = Part.writeAll w.severity printer.style.color
        [.text w.lead, .painted w.severity.name,
          .text (" [" ++ w.code ++ "] - " ++ w.message ++ "\n")] := by
    unfold summary Warning.lead
    cases w.range with
    | none =>
      simp [Part.writeAll, Part.write, String.join_cons, String.append_assoc, paint, toString]
    | some range =>
      simp [Part.writeAll, Part.write, String.join_cons, String.append_assoc, paint, toString]
  rw [render_eq, hsummary, Warning.parts, Part.writeAll_append]
  congr 1
  split
  · next hfull => exact sourceBlock_eq_writeAll hfull w
  · next hbrief =>
    cases hverbosity : printer.style.verbosity with
    | oneLine => exact sourceBlock_oneLine hverbosity w
    | full => exact absurd hverbosity hbrief

end Printer

theorem escapeFree_underline (line : String) (number : UInt32) (range : SourceRange) :
    Escape.Free (underline line number range) := by
  intro h
  rcases mem_underline h with h | h | h
  · cases h
  · cases h
  · cases h

namespace Warning

/-- Nothing that is quoted when the warning is printed has an escape character: not the code, not
the message, and neither the path nor the text of its file. -/
structure EscapeFree (load : Loader) (w : Warning) : Prop where
  code : Escape.Free w.code
  message : Escape.Free w.message
  path : ∀ range, w.range = some range → Escape.Free range.file.text
  text : ∀ range file, w.range = some range → load range.file = .ok file →
    Escape.Free file.content

variable {load : Loader} {w : Warning}

theorem EscapeFree.lead (h : w.EscapeFree load) : Escape.Free w.lead := by
  unfold Warning.lead
  cases hrange : w.range with
  | none =>
    change Escape.Free (("INTERNAL ERROR: Tried to print a '" ++ w.code ++
      "' warning without a source range. ") ++ "Please report this!\n")
    simp only [Escape.free_append, h.code, and_true]
    decide
  | some range =>
    have hline : Escape.Free (toString range.start.line.toNat) :=
      Text.not_mem_toString (by decide) _
    have hcolumn : Escape.Free (toString range.start.column.toNat) :=
      Text.not_mem_toString (by decide) _
    change Escape.Free (range.file.text ++ "(" ++ (toString range.start.line.toNat ++ "," ++
      toString range.start.column.toNat) ++ ") ")
    simp only [Escape.free_append, h.path range hrange, hline, hcolumn, and_true, true_and]
    decide

theorem EscapeFree.excerpt (h : w.EscapeFree load) :
    ∀ entry ∈ w.excerpt load, Escape.Free entry.1 ∧ Escape.Free entry.2 := by
  intro entry hentry
  obtain ⟨range, file, hrange, hload, hexcerpt⟩ :=
    exists_of_excerpt_ne_nil (List.ne_nil_of_mem hentry)
  rw [hexcerpt, SourceRange.excerpt] at hentry
  obtain ⟨⟨line, n⟩, hline, rfl⟩ := List.mem_map.mp hentry
  have hnumbered := (List.mem_filter.mp hline).1
  exact ⟨fun hc => h.text range file hrange hload (SourceFile.mem_of_mem_numbered hnumbered hc),
    escapeFree_underline _ _ _⟩

theorem EscapeFree.parts (h : w.EscapeFree load) (verbosity : Verbosity) :
    ∀ part ∈ w.parts load verbosity, Escape.Free part.content := by
  have hexcerpt : ∀ part ∈ w.excerptParts load, Escape.Free part.content := by
    unfold excerptParts
    split
    · exact List.forall_mem_nil _
    · intro part hpart
      simp only [List.mem_append, List.mem_singleton, List.mem_flatMap] at hpart
      rcases hpart with (rfl | ⟨entry, hentry, hpart⟩) | rfl
      · change Escape.Free "\n"
        decide
      · obtain ⟨hline, hmarks⟩ := h.excerpt entry hentry
        simp only [List.mem_cons, List.not_mem_nil, or_false] at hpart
        rcases hpart with rfl | rfl
        · have hfeed : Escape.Free "\n" := by decide
          exact Escape.free_append.mpr ⟨Escape.free_append.mpr ⟨hfeed, hline⟩, hfeed⟩
        · exact hmarks
      · change Escape.Free "\n\n"
        decide
  intro part hpart
  rcases List.mem_append.mp hpart with hpart | hpart
  · split at hpart
    · exact hexcerpt part hpart
    · cases hpart
  · simp only [List.mem_cons, List.not_mem_nil, or_false] at hpart
    rcases hpart with rfl | rfl | rfl
    · exact h.lead
    · change Escape.Free w.severity.name
      cases w.severity <;> decide
    · change Escape.Free (" [" ++ w.code ++ "] - " ++ w.message ++ "\n")
      simp only [Escape.free_append, h.code, h.message, and_true]
      decide

/-- Colours only add escape sequences. What is printed in colour is, without its sequences, what
is printed without colours; and its sequences are a pair for each underline that is printed and
one for the summary, of which the first selects the colour of the severity and the second resets
it, around the underlines and the name of the severity. -/
theorem render_color (load : Loader) (verbosity : Verbosity) (w : Warning)
    (h : w.EscapeFree load) :
    let colored := Printer.render ⟨load, ⟨verbosity, true⟩⟩ w
    let painted := (if verbosity = .full then (w.excerpt load).map (·.2) else []) ++
      [w.severity.name]
    Escape.strip colored = Printer.render ⟨load, ⟨verbosity, false⟩⟩ w ∧
      (Escape.sequences colored).map (·.1) =
        painted.flatMap (fun _ => [toString w.severity.colour, "0"]) ∧
      ((Escape.sequences colored).filter (·.1 ≠ "0")).map (·.2) = painted := by
  intro colored painted
  have hparts := h.parts verbosity
  obtain ⟨hdigits, hbehind⟩ := Part.sequences_writeAll w.severity hparts
  rw [w.filterMap_painted?_parts load verbosity] at hdigits hbehind
  rw [show colored = _ from Printer.render_eq_writeAll _ w, Printer.render_eq_writeAll]
  exact ⟨Part.strip_writeAll w.severity hparts, hdigits, hbehind⟩

/-- A warning about the end of a line, which stops in front of the next one. -/
def lineEnd : Warning := .warning "line-end" "more" ⟨⟨"a.html"⟩, ⟨0, 1⟩, ⟨1, 0⟩⟩

/-- The line on which the range stops has no mark, but what is under it is painted. -/
theorem render_color_lineEnd :
    let load := Printer.returnPrinter.load
    lineEnd.EscapeFree load ∧
      Escape.strip (Printer.render ⟨load, ⟨.full, true⟩⟩ lineEnd) =
        Printer.render ⟨load, ⟨.full, false⟩⟩ lineEnd ∧
      ((Escape.sequences (Printer.render ⟨load, ⟨.full, true⟩⟩ lineEnd)).filter
        (·.1 ≠ "0")).map (·.2) = [" ~~", "", "warning"] := by
  intro load
  have h : lineEnd.EscapeFree load := by
    refine ⟨by decide, by decide, ?_, ?_⟩
    · rintro _ ⟨⟩
      decide
    · rintro _ _ ⟨⟩ ⟨⟩
      decide +kernel
  obtain ⟨hstrip, -, hbehind⟩ := render_color load .full lineEnd h
  refine ⟨h, hstrip, hbehind.trans ?_⟩
  decide +kernel

end Warning

end PageLint
