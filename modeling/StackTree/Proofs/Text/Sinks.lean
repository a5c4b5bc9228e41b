import StackTree.Proofs.Text.Pieces
import StackTree.Proofs.Ownership.Reach

/-!
# Rendering where room is limited

A sink takes a piece whole or refuses it, and it does not remember a refusal: a later piece that is
short enough would be taken again. So it is up to the writer to stop. It does: when a text is longer
than the room there is, the sink holds the pieces before the first that does not fit and nothing of
what comes after, which is less than the text. When the text is not longer, the sink holds the text.

## Main results

* `Sink.forM_write_of_le`, `Sink.forM_write_of_lt`: what becomes of pieces that fit together and of
  pieces that do not.
* `Routine.Reachable.renderInto_exact`: what becomes of a text.
-/

namespace StackTree

namespace Sink

theorem after_append (sink : Sink) (first second : String) :
    sink.after (first ++ second) = (sink.after first).after second := by
  simp only [after, String.utf8ByteSize_append, Nat.sub_sub, String.append_assoc]

theorem after_empty (sink : Sink) : sink.after "" = sink := by
  simp [after]

theorem forM_write_cons_of_le {piece : String} {sink : Sink} (rest : List String)
    (h : piece.utf8ByteSize ≤ sink.room) :
    forM (piece :: rest) write sink = forM rest write (sink.after piece) := by
  have hpiece : write piece sink = .ok () (sink.after piece) := if_pos h
  show (write piece >>= fun _ => forM rest write) sink = _
  simp only [bind, EStateM.bind, hpiece]

theorem forM_write_cons_of_lt {piece : String} {sink : Sink} (rest : List String)
    (h : sink.room < piece.utf8ByteSize) :
    forM (piece :: rest) write sink =
      .error (.internal "failed to write instruction text") sink := by
  have hpiece : write piece sink = .error (.internal "failed to write instruction text") sink :=
    if_neg (Nat.not_le_of_lt h)
  show (write piece >>= fun _ => forM rest write) sink = _
  simp only [bind, EStateM.bind, hpiece]

/-- Pieces that fit together are all taken. -/
theorem forM_write_of_le (pieces : List String) (sink : Sink)
    (h : (String.join pieces).utf8ByteSize ≤ sink.room) :
    forM pieces write sink = .ok () (sink.after (String.join pieces)) := by
  induction pieces generalizing sink with
  | nil =>
    rw [String.join_nil, after_empty]
    rfl
  | cons piece rest ih =>
    rw [String.join_cons, String.utf8ByteSize_append] at h
    have hrest : (String.join rest).utf8ByteSize ≤ (sink.after piece).room := by
      show _ ≤ sink.room - piece.utf8ByteSize
      omega
    rw [forM_write_cons_of_le rest (by omega), ih _ hrest, String.join_cons, after_append]

/-- Of pieces that do not fit together those before the first one too long are taken, no other. -/
theorem forM_write_of_lt (pieces : List String) (sink : Sink)
    (h : sink.room < (String.join pieces).utf8ByteSize) :
    ∃ earlier piece later, pieces = earlier ++ piece :: later ∧
      (String.join earlier).utf8ByteSize ≤ sink.room ∧
      sink.room < (String.join earlier).utf8ByteSize + piece.utf8ByteSize ∧
      forM pieces write sink =
        .error (.internal "failed to write instruction text")
          (sink.after (String.join earlier)) := by
  induction pieces generalizing sink with
  | nil => simp at h
  | cons piece rest ih =>
    by_cases hpiece : piece.utf8ByteSize ≤ sink.room
    · have hroom : (sink.after piece).room = sink.room - piece.utf8ByteSize := rfl
      rw [String.join_cons, String.utf8ByteSize_append] at h
      obtain ⟨earlier, refused, later, hsplit, hfits, hover, hrun⟩ :=
        ih (sink.after piece) (by omega)
      refine ⟨piece :: earlier, refused, later, by rw [hsplit, List.cons_append], ?_⟩
      rw [String.join_cons, String.utf8ByteSize_append, after_append,
        forM_write_cons_of_le rest hpiece]
      exact ⟨by omega, by omega, hrun⟩
    · refine ⟨[], piece, rest, rfl, ?_⟩
      rw [String.join_nil, after_empty]
      simp only [String.utf8ByteSize_empty]
      exact ⟨by omega, by omega, forM_write_cons_of_lt rest (by omega)⟩

end Sink

namespace Routine

variable {r : Routine}

/-- **Rendering where room is limited.** For a live node of a reachable routine the pieces of its
text are written in order, whatever they are written to. A text that is not longer than the room
there is goes into the sink as it is. A longer text is refused: the sink holds the pieces before the
first that goes beyond the room, which are less than the text, and nothing that comes after it. -/
theorem Reachable.renderInto_exact (h : r.Reachable) {n : NodeId} (hn : r.isLive n = true)
    (limit : Nat) :
    ∃ t, r.tree n = .ok t ∧ r.render n = .ok t.term.text ∧
      (∀ {σ : Type} (put : String → EStateM Fault σ Unit),
        r.renderTo put n = forM t.term.pieces put) ∧
      (t.term.text.utf8ByteSize ≤ limit →
        r.renderInto n { room := limit } =
          .ok () { room := limit - t.term.text.utf8ByteSize, taken := t.term.text }) ∧
      (limit < t.term.text.utf8ByteSize →
        ∃ earlier piece later, t.term.pieces = earlier ++ piece :: later ∧
          (String.join earlier).utf8ByteSize ≤ limit ∧
          limit < (String.join earlier).utf8ByteSize + piece.utf8ByteSize ∧
          r.renderInto n { room := limit } =
            .error (.internal "failed to write instruction text")
              { room := limit - (String.join earlier).utf8ByteSize,
                taken := String.join earlier } ∧
          ∃ rest, rest ≠ "" ∧ t.term.text = String.join earlier ++ rest) := by
  have hr := h.sound.toStructured
  obtain ⟨t, ht⟩ := hr.exists_shows hn
  have hempty (text : String) : Sink.after { room := limit } text =
      { room := limit - text.utf8ByteSize, taken := text } := by
    rw [Sink.after, String.empty_append]
  refine ⟨t, hr.tree_eq ht, hr.render_eq ht, fun put => hr.renderTo_eq put ht, ?_, ?_⟩
  · intro hfits
    have hrun := Sink.forM_write_of_le t.term.pieces { room := limit } hfits
    rw [renderInto, hr.renderTo_eq Sink.write ht, hrun, hempty]
    rfl
  · intro hlong
    obtain ⟨earlier, piece, later, hsplit, hfits, hover, hrun⟩ :=
      Sink.forM_write_of_lt t.term.pieces { room := limit } hlong
    refine ⟨earlier, piece, later, hsplit, hfits, hover, ?_, String.join (piece :: later), ?_, ?_⟩
    · rw [renderInto, hr.renderTo_eq Sink.write ht, hrun, hempty]
    · intro hnone
      rw [Term.text, hsplit, String.join_append, hnone, String.append_empty] at hlong
      exact absurd hfits (Nat.not_le_of_lt hlong)
    · rw [Term.text, hsplit, String.join_append]

/-- The sign of a constant still fits and its digits do not. The comma and the parenthesis that come
later would fit, but they are not written. -/
theorem renderInto_stops_at_digits :
    let build : Edit Unit := do
      let a ← alloc (.const (-12345)) []
      let b ← alloc (.const 7) []
      let _ ← alloc (.binary .add) [a, b]
    let r := leftBy (build { name := "main" })
    r.Reachable ∧ r.isLive ⟨2⟩ = true ∧
      r.renderInto ⟨2⟩ { room := 14 } = .error (.internal "failed to write instruction text")
        { room := 2, taken := "add(ldc.i4 -" } ∧
      ∃ t, r.tree ⟨2⟩ = .ok t ∧ 14 < t.term.text.utf8ByteSize ∧
        ∃ earlier piece later, t.term.pieces = earlier ++ piece :: later ∧
          String.join earlier = "add(ldc.i4 -" ∧ 2 < piece.utf8ByteSize := by
  intro build r
  have hreach : r.Reachable :=
    ⟨"main", Unit, build, .bind (.alloc _ _) fun _ => .bind (.alloc _ _) fun _ =>
      .bind (.alloc _ _) fun _ => .pure _, rfl⟩
  have hlive : r.isLive ⟨2⟩ = true := by decide +kernel
  have hrender : r.render ⟨2⟩ = .ok "add(ldc.i4 -12345, ldc.i4 7)" := by decide +kernel
  obtain ⟨t, htree, htext, -, -, hstops⟩ := Reachable.renderInto_exact hreach hlive 14
  have hsame : t.term.text = "add(ldc.i4 -12345, ldc.i4 7)" :=
    Except.ok.inj (htext.symm.trans hrender)
  have hlong : 14 < t.term.text.utf8ByteSize := by
    rw [hsame]
    decide +kernel
  obtain ⟨earlier, piece, later, hsplit, hfits, hover, hrun, -⟩ := hstops hlong
  have hsink : r.renderInto ⟨2⟩ { room := 14 } =
      .error (.internal "failed to write instruction text")
        { room := 2, taken := "add(ldc.i4 -" } := by
    rfl
  obtain ⟨-, hheld⟩ := EStateM.Result.error.inj (hrun.symm.trans hsink)
  have hearlier : String.join earlier = "add(ldc.i4 -" := congrArg Sink.taken hheld
  have hroom : 14 - (String.join earlier).utf8ByteSize = 2 := congrArg Sink.room hheld
  exact ⟨hreach, hlive, hsink, t, htree, hlong, earlier, piece, later, hsplit, hearlier, by omega⟩

end Routine

end StackTree
