import TreeBackend.Machine.Writer

/-!
# What is written

Writing bytes to a sink, the writer takes them from the first one on.  It has taken all of them
in the end, unless it refuses an offer of what is left.
-/

namespace TreeBackend.Machine

/-- A writer takes something whenever it is offered something. -/
def Writer.Accepts (writer : Writer) : Prop :=
  ∀ memory byte rest, ∃ more later,
    writer.answer memory (byte :: rest) = (.takes (more + 1), later)

theorem Writer.accepts_unlimited : unlimited.Accepts := fun memory _ rest =>
  ⟨rest.length, memory, rfl⟩

def Writer.Refuses (writer : Writer) (offered : List UInt8) (reason : String) : Prop :=
  ∃ memory later, writer.answer memory offered = (.fails reason, later) ∨
    writer.answer memory offered = (.takes 0, later) ∧ reason = Sink.wholeBufferReason

theorem toByteArray_utf8 (text : String) : text.toUTF8.data.toList.toByteArray = text.toUTF8 :=
  ByteArray.ext (by simp)

namespace Sink

/-- What writing bytes to a sink comes to: all of them have been taken, or some of them have and
an offer of the rest has been refused. -/
inductive Wrote (sink : Sink) (bytes : List UInt8) : EStateM.Result String Sink Unit → Prop where
  | all {final : Sink} (writer : final.writer = sink.writer)
      (written : final.written = sink.written ++ bytes.toByteArray) :
      Wrote sink bytes (.ok () final)
  | part {final : Sink} {reason : String} {taken left : List UInt8} {next : UInt8}
      (parts : bytes = taken ++ next :: left) (writer : final.writer = sink.writer)
      (written : final.written = sink.written ++ taken.toByteArray)
      (refused : sink.writer.Refuses (next :: left) reason) : Wrote sink bytes (.error reason final)

theorem Wrote.after {sink later : Sink} {first rest : List UInt8}
    {outcome : EStateM.Result String Sink Unit} (writer : later.writer = sink.writer)
    (written : later.written = sink.written ++ first.toByteArray)
    (wrote : later.Wrote rest outcome) :
    sink.Wrote (first ++ rest) outcome := by
  cases wrote with
  | all sameWriter whole =>
      refine .all (sameWriter.trans writer) ?_
      rw [whole, written, ByteArray.append_assoc, ← List.toByteArray_append]
  | part parts sameWriter whole refused =>
      refine .part (by rw [parts, ← List.append_assoc]) (sameWriter.trans writer) ?_
        (writer ▸ refused)
      rw [whole, written, ByteArray.append_assoc, ← List.toByteArray_append]

theorem wrote_writeAll (taken : Nat) (bytes : List UInt8) (sink : Sink) :
    sink.Wrote (bytes.drop taken) (sink.writeAll taken bytes) := by
  induction bytes generalizing taken sink with
  | nil =>
      rw [List.drop_nil]
      exact .all rfl (by simp)
  | cons byte rest ih =>
      cases taken with
      | succ taken => exact ih taken sink
      | zero =>
          obtain ⟨writer, memory, written⟩ := sink
          have nothing : written = written ++ ([] : List UInt8).toByteArray := by simp
          unfold writeAll
          split
          · next later refused =>
              exact .part (List.nil_append _).symm rfl nothing ⟨memory, later, .inr ⟨refused, rfl⟩⟩
          · next more later _ =>
              have split : (byte :: rest) = (byte :: rest.take more) ++ rest.drop more := by simp
              rw [List.drop_zero, split]
              have wrote := ih more
                ⟨writer, later, written ++ (byte :: rest.take more).toByteArray⟩
              exact wrote.after (by rfl) (by rfl)
          · next reason later refused =>
              exact .part (List.nil_append _).symm rfl nothing ⟨memory, later, .inl refused⟩

theorem wrote_write (sink : Sink) (text : String) :
    sink.Wrote text.toUTF8.data.toList (sink.write text) :=
  sink.wrote_writeAll 0 _

/-- A writer that takes something of every offer takes everything. -/
theorem exists_write_eq_ok (sink : Sink) (accepts : sink.writer.Accepts) (text : String) :
    ∃ final, sink.write text = .ok () final ∧ final.writer = sink.writer ∧
      final.written = sink.written ++ text.toUTF8 := by
  have wrote := sink.wrote_write text
  generalize sink.write text = outcome at wrote
  cases wrote with
  | all writer written => exact ⟨_, rfl, writer, by rw [written, toByteArray_utf8]⟩
  | part _ _ _ refused =>
      obtain ⟨memory, later, failed | ⟨failed, -⟩⟩ := refused
      · obtain ⟨_, _, taken⟩ := accepts memory _ _
        cases failed.symm.trans taken
      · obtain ⟨_, _, taken⟩ := accepts memory _ _
        cases failed.symm.trans taken

theorem writeAll_of_length_le {taken : Nat} {bytes : List UInt8} (sink : Sink)
    (all : bytes.length ≤ taken) : sink.writeAll taken bytes = .ok () sink := by
  induction bytes generalizing taken with
  | nil => cases taken <;> rfl
  | cons byte rest ih =>
      obtain ⟨taken, rfl⟩ := Nat.exists_eq_add_of_lt all
      exact ih (by omega)

/-- The writer that takes everything takes a text at once. -/
theorem write_unlimited (text piece : String) :
    write { written := text.toUTF8 } piece = .ok () { written := (text ++ piece).toUTF8 } := by
  have atOnce (bytes : List UInt8) : writeAll 0 bytes { written := text.toUTF8 } =
      .ok () { written := text.toUTF8 ++ bytes.toByteArray } := by
    cases bytes with
    | nil => simp [writeAll]
    | cons byte rest =>
        change writeAll rest.length rest _ = _
        rw [writeAll_of_length_le _ Nat.le.refl, List.take_length]
  have whole : (text ++ piece).toUTF8 = text.toUTF8 ++ piece.toUTF8 := String.toByteArray_append
  rw [write, atOnce, toByteArray_utf8, whole]

end Sink

end TreeBackend.Machine
