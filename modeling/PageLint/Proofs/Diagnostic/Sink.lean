import PageLint.Proofs.Diagnostic.OneLine

/-!
# Sinks that run full

A sink with a limit refuses the first warning that it has no room for, and printing ends there.
What it then holds is the printing of the longest part of the list, from its start on, that there
is room for. Nothing else ends a run: a warning that has no range, or whose file cannot be loaded,
is printed with what can be said of it.
-/

namespace PageLint

namespace Sink

variable {sink : Sink} {text : String}

/-- The sink with one more text at its end. -/
def extended (sink : Sink) (text : String) : Sink := { sink with written := sink.written ++ text }

theorem extended_append (sink : Sink) (first second : String) :
    sink.extended (first ++ second) = (sink.extended first).extended second := by
  simp [extended, String.append_assoc]

theorem hasRoom_limited {written : String} {limit : Nat} :
    (⟨written, some limit⟩ : Sink).hasRoom text ↔
      written.utf8ByteSize + text.utf8ByteSize ≤ limit := by
  simp [hasRoom]

/-- There is room for two texts at once if there is room for one after the other. -/
theorem hasRoom_append {first second : String} : sink.hasRoom (first ++ second) ↔
    sink.hasRoom first ∧ (sink.extended first).hasRoom second := by
  obtain ⟨written, limit⟩ := sink
  cases limit with
  | none => simp [hasRoom, extended]
  | some limit =>
    simp only [extended, hasRoom_limited, String.utf8ByteSize_append]
    omega

theorem write_of_hasRoom (room : sink.hasRoom text) : sink.write text = .ok (sink.extended text) :=
  if_pos room

theorem write_of_not_hasRoom (full : ¬ sink.hasRoom text) : sink.write text = .error .sinkFull :=
  if_neg full

end Sink

namespace Printer

/-- The warnings that a sink takes before it refuses one. -/
def taken (printer : Printer) (sink : Sink) : List Warning → List Warning
  | [] => []
  | w :: ws =>
    if sink.hasRoom (printer.render w) then
      w :: printer.taken (sink.extended (printer.render w)) ws
    else []

variable {printer : Printer} {sink : Sink} {w : Warning} {ws : List Warning}

@[simp] theorem renderAll_nil : printer.renderAll [] = "" := rfl

@[simp] theorem renderAll_cons :
    printer.renderAll (w :: ws) = printer.render w ++ printer.renderAll ws := by
  simp [renderAll]

theorem renderAll_append (ws more : List Warning) :
    printer.renderAll (ws ++ more) = printer.renderAll ws ++ printer.renderAll more := by
  induction ws with
  | nil => simp
  | cons w ws ih => simp [ih, String.append_assoc]

theorem taken_of_hasRoom (room : sink.hasRoom (printer.render w)) :
    printer.taken sink (w :: ws) = w :: printer.taken (sink.extended (printer.render w)) ws :=
  if_pos room

theorem taken_of_not_hasRoom (full : ¬ sink.hasRoom (printer.render w)) :
    printer.taken sink (w :: ws) = [] :=
  if_neg full

theorem taken_isPrefix (sink : Sink) (ws : List Warning) : printer.taken sink ws <+: ws := by
  induction ws generalizing sink with
  | nil => exact List.nil_prefix
  | cons w ws ih =>
    by_cases room : sink.hasRoom (printer.render w)
    · rw [taken_of_hasRoom room]
      exact (List.prefix_cons_inj w).mpr (ih _)
    · rw [taken_of_not_hasRoom room]
      exact List.nil_prefix

theorem hasRoom_taken (start : sink.hasRoom "") (ws : List Warning) :
    sink.hasRoom (printer.renderAll (printer.taken sink ws)) := by
  induction ws generalizing sink with
  | nil => exact start
  | cons w ws ih =>
    by_cases room : sink.hasRoom (printer.render w)
    · rw [taken_of_hasRoom room, renderAll_cons, Sink.hasRoom_append]
      refine ⟨room, ih ?_⟩
      rw [← String.append_empty (s := printer.render w), Sink.hasRoom_append] at room
      exact room.2
    · rw [taken_of_not_hasRoom room]
      exact start

/-- There is no room for the first warning that is not taken. -/
theorem not_hasRoom_next {rest : List Warning} (h : printer.taken sink ws ++ w :: rest = ws) :
    ¬ sink.hasRoom (printer.renderAll (printer.taken sink ws ++ [w])) := by
  induction ws generalizing sink with
  | nil => simp [taken] at h
  | cons first ws ih =>
    by_cases room : sink.hasRoom (printer.render first)
    · rw [taken_of_hasRoom room, List.cons_append] at h ⊢
      rw [renderAll_cons, Sink.hasRoom_append]
      exact fun both => ih (List.cons.inj h).2 both.2
    · rw [taken_of_not_hasRoom room, List.nil_append] at h ⊢
      obtain ⟨rfl, -⟩ := List.cons.inj h
      simpa using room

/-- All that there is room for from the start of the list on is taken. -/
theorem isPrefix_taken {more : List Warning} (h : more <+: ws)
    (room : sink.hasRoom (printer.renderAll more)) : more <+: printer.taken sink ws := by
  rcases List.prefix_or_prefix_of_prefix h (taken_isPrefix sink ws) with hle | hle
  · exact hle
  · obtain ⟨beyond, rfl⟩ := hle
    cases beyond with
    | nil => simp
    | cons w beyond =>
      obtain ⟨behind, hws⟩ := h
      rw [List.append_assoc, List.cons_append] at hws
      rw [List.append_cons, renderAll_append, Sink.hasRoom_append] at room
      exact absurd room.1 (not_hasRoom_next hws)

theorem printAll_eq (sink : Sink) (ws : List Warning) :
    printer.printAll sink ws = (sink.extended (printer.renderAll (printer.taken sink ws)),
      if printer.taken sink ws = ws then .ok ws.length else .error .sinkFull) := by
  induction ws generalizing sink with
  | nil => simp [printAll, taken, Sink.extended]
  | cons w ws ih =>
    rw [printAll]
    by_cases room : sink.hasRoom (printer.render w)
    · rw [Sink.write_of_hasRoom room, taken_of_hasRoom room, renderAll_cons,
        Sink.extended_append]
      simp only [ih, List.cons.injEq, true_and, List.length_cons]
      split
      · rfl
      · rfl
    · rw [Sink.write_of_not_hasRoom room, taken_of_not_hasRoom room]
      simp [Sink.extended]

/-- A sink that holds at most so many bytes ends up with the printing of the longest part of the
list, from its start on, that is no longer than that. All warnings are counted if that part is
the whole list; else printing ends with an error, at a warning that there is no room for. -/
theorem printAll_limited (printer : Printer) (limit : Nat) (ws : List Warning) :
    ∃ printed, printed <+: ws ∧
      printer.printAll (Sink.empty (some limit)) ws =
        (⟨printer.renderAll printed, some limit⟩,
          if printed = ws then .ok ws.length else .error .sinkFull) ∧
      (printer.renderAll printed).utf8ByteSize ≤ limit ∧
      (∀ more, more <+: ws → (printer.renderAll more).utf8ByteSize ≤ limit →
        more <+: printed) ∧
      ∀ w rest, ws = printed ++ w :: rest →
        limit < (printer.renderAll printed).utf8ByteSize + (printer.render w).utf8ByteSize := by
  have room_iff : ∀ text, (Sink.empty (some limit)).hasRoom text ↔ text.utf8ByteSize ≤ limit := by
    intro text
    rw [Sink.empty, Sink.hasRoom_limited, String.utf8ByteSize_empty, Nat.zero_add]
  refine ⟨printer.taken (Sink.empty (some limit)) ws, taken_isPrefix _ ws, ?_, ?_, ?_, ?_⟩
  · rw [printAll_eq, Sink.extended, Sink.empty, String.empty_append]
  · rw [← room_iff]
    exact hasRoom_taken ((room_iff "").mpr (Nat.zero_le _)) ws
  · intro more h hsize
    exact isPrefix_taken h ((room_iff _).mpr hsize)
  · intro w rest h
    have full := not_hasRoom_next h.symm
    rw [room_iff, renderAll_append, String.utf8ByteSize_append] at full
    simpa using full

/-- Two warnings that have no lines to show are printed, and the third has no room. -/
example :
    let printer : Printer := ⟨fun path => .error (.notFound path), ⟨.full, false⟩⟩
    let lost : Warning := ⟨"lost", "m", .error, none⟩
    let gone : Warning := ⟨"gone", "m", .info, some ⟨⟨"a.html"⟩, ⟨0, 0⟩, ⟨0, 0⟩⟩⟩
    (printer.printAll (Sink.empty (some 150)) [lost, gone, lost]).1.written =
      printer.renderAll [lost, gone] := by
  intro printer lost gone
  decide +kernel

end Printer

end PageLint
