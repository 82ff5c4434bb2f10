import Libpdk.Io.RandomAccess

/-!
# What a random-access device reads

`FileDevice`: virtual functions that implement a byte file, seen from the state of the base.
`rest s` are the bytes before `s`: those in the buffer, and those of the file behind them.
`privateRead_spec` is what `IoDevicePrivate::read` does to them, from what each part of a round
does to the `ReadingInv`: of a reading, bytes that were checked for carriage returns, bytes that
were not, and bytes that are left in the buffer.
-/
namespace Libpdk.Io

open PushQueue

class FileDevice (B D : Type) [PushQueue B] extends Virtual B D where
  file : D → Bytes
  /-- The device reads and writes at a position. -/
  Ready : D → Nat → Prop
  readData_eq : ∀ (s : RandomAccess B D) (n : Nat), s.pos = s.devicePos →
    Ready s.device s.devicePos → ∃ device, readData s n =
      (some (((file s.device).drop s.devicePos).take n), { s with device := device }) ∧
      file device = file s.device ∧
      Ready device (s.devicePos + (((file s.device).drop s.devicePos).take n).length)
  readData_zero : ∀ s : RandomAccess B D, ∃ device, (readData s 0).2 = { s with device := device } ∧
    file device = file s.device ∧ ∀ pos, Ready s.device pos → Ready device pos
  seek_within : ∀ (s : RandomAccess B D) (pos : Nat), pos ≤ (file s.device).length →
    ∃ device, seek s pos = some (true,
      { s with device := device, devicePos := pos }.seekBuffer pos) ∧
      file device = file s.device ∧ Ready device pos
  getSize_eq : ∀ s : RandomAccess B D, getSize s = (file s.device).length

namespace RandomAccess

/-! ## Bytes without carriage returns -/

def strip (text : Bool) (bytes : Bytes) : Bytes :=
  if text then bytes.filter (· ≠ carriageReturn) else bytes

/-- What is left of the bytes when `n` have been delivered. -/
@[grind =] def left (text : Bool) : Nat → Bytes → Bytes
  | 0, l => l
  | _ + 1, [] => []
  | n + 1, c :: l => if text ∧ c = carriageReturn then left text (n + 1) l else left text n l

variable {text : Bool}

@[simp] theorem strip_nil : strip text [] = [] := by
  cases text <;> rfl

@[simp] theorem strip_append (a b : Bytes) : strip text (a ++ b) = strip text a ++ strip text b := by
  cases text with
  | true => exact List.filter_append ..
  | false => rfl

theorem strip_cons (c : UInt8) (l : Bytes) : strip text (c :: l) =
    if text ∧ c = carriageReturn then strip text l else c :: strip text l := by
  cases text with
  | true =>
    by_cases hc : c = carriageReturn
    · simp [strip, hc]
    · simp [strip, hc]
  | false => simp [strip]

theorem strip_length_le (l : Bytes) : (strip text l).length ≤ l.length := by
  cases text with
  | true => exact List.length_filter_le ..
  | false => exact Nat.le_refl _

@[simp] theorem left_zero (l : Bytes) : left text 0 l = l := by
  cases l <;> rfl

@[simp] theorem left_nil (n : Nat) : left text n [] = [] := by
  cases n <;> rfl

/-- The first bytes, when no more of them are taken than wanted. -/
theorem left_append : ∀ (a : Bytes) {n : Nat} (b : Bytes), a.length ≤ n →
    left text n (a ++ b) = left text (n - (strip text a).length) b
  | [], n, b, _ => by simp
  | c :: a, n + 1, b, h => by
    rw [List.length_cons] at h
    rw [List.cons_append, left, strip_cons]
    have hle := @strip_length_le text a
    split
    · exact left_append a b (by omega)
    · rw [left_append a b (by omega), List.length_cons, Nat.add_sub_add_right]

theorem strip_left : ∀ (n : Nat) (l : Bytes), strip text (left text n l) = (strip text l).drop n
  | 0, l => by simp
  | n + 1, [] => by simp
  | n + 1, c :: l => by
    rw [left, strip_cons]
    split
    · exact strip_left (n + 1) l
    · rw [strip_left n l, List.drop_succ_cons]

theorem left_suffix : ∀ (n : Nat) (l : Bytes), left text n l <:+ l
  | 0, l => by simp
  | n + 1, [] => by simp
  | n + 1, c :: l => by
    rw [left]
    split
    · exact (left_suffix (n + 1) l).trans (List.suffix_cons c l)
    · exact (left_suffix n l).trans (List.suffix_cons c l)

theorem strip_false (l : Bytes) : strip false l = l := rfl

theorem left_false : ∀ (n : Nat) (l : Bytes), left false n l = l.drop n
  | 0, l => by simp
  | n + 1, [] => by simp
  | n + 1, c :: l => by
    rw [left, if_neg (by simp), left_false n l, List.drop_succ_cons]

/-! ## The bytes before a device -/

variable {B D : Type} [PushQueue B] [FileDevice B D]

open FileDevice

def rest (s : RandomAccess B D) : Bytes :=
  content s.buffer ++ (file B s.device).drop (s.pos + (content s.buffer).length)

/-- The open mode, the chunk size and the file are those of `s`. -/
structure Same (s s' : RandomAccess B D) : Prop where
  readable : s'.readable = s.readable
  writable : s'.writable = s.writable
  unbuffered : s'.unbuffered = s.unbuffered
  text : s'.text = s.text
  chunk : s'.readBufferChunkSize = s.readBufferChunkSize
  file : file B s'.device = file B s.device

theorem Same.refl (s : RandomAccess B D) : Same s s := ⟨rfl, rfl, rfl, rfl, rfl, rfl⟩

theorem Same.trans {s s₁ s₂ : RandomAccess B D} (h : Same s s₁) (h' : Same s₁ s₂) : Same s s₂ :=
  ⟨h'.1.trans h.1, h'.2.trans h.2, h'.3.trans h.3, h'.4.trans h.4, h'.5.trans h.5, h'.6.trans h.6⟩

/-- The device is where the base thinks it is, and the buffer does not go beyond the file. -/
structure Placed (s : RandomAccess B D) : Prop where
  le : s.pos + (content s.buffer).length ≤ (file B s.device).length
  devicePos : s.devicePos ≤ (file B s.device).length
  ready : Ready B s.device s.devicePos
  chunk : s.readBufferChunkSize < maxByteArraySize

variable {s : RandomAccess B D}

theorem notify_spec (s : RandomAccess B D) : ∃ device, s.notify = { s with device := device } ∧
    file B device = file B s.device ∧ ∀ pos, Ready B s.device pos → Ready B device pos :=
  readData_zero s

/-- Telling the device that the buffer is empty changes nothing. -/
theorem notifyIf_spec (h : Placed s) (empty : Bool) : Placed (s.notifyIf empty) ∧
    Same s (s.notifyIf empty) ∧ rest (s.notifyIf empty) = rest s ∧
    (s.notifyIf empty).pos = s.pos ∧ (s.notifyIf empty).buffer = s.buffer := by
  cases empty with
  | false => exact ⟨h, Same.refl s, rfl, rfl, rfl⟩
  | true =>
    obtain ⟨device, hs, hfile, hready⟩ := notify_spec s
    rw [notifyIf, if_pos rfl, hs]
    refine ⟨⟨?_, ?_, hready _ h.ready, h.chunk⟩, ⟨rfl, rfl, rfl, rfl, rfl, hfile⟩, ?_, rfl, rfl⟩
    · rw [hfile]
      exact h.le
    · rw [hfile]
      exact h.devicePos
    · rw [rest, rest, hfile]

omit [FileDevice B D] in
theorem content_seekBuffer (s : RandomAccess B D) (newPos : Nat) :
    content (s.seekBuffer newPos).buffer =
      if newPos < s.pos then [] else (content s.buffer).drop (newPos - s.pos) := by
  unfold seekBuffer
  simp only [size_eq]
  by_cases hback : newPos < s.pos
  · rw [if_pos (.inl hback), if_pos hback, content_clear]
  · rw [if_neg hback]
    by_cases hall : (content s.buffer).length ≤ newPos - s.pos
    · rw [if_pos (.inr hall), content_clear, List.drop_of_length_le hall]
    · rw [if_neg (by omega), content_free _ _ (by omega)]

omit [FileDevice B D] in
/-- The buffer is as it was, but it may have been cleared where it was empty. -/
theorem seekBuffer_self (s : RandomAccess B D) :
    content (s.seekBuffer s.pos).buffer = content s.buffer ∧
      (Appendable s.buffer → Appendable (s.seekBuffer s.pos).buffer) := by
  unfold seekBuffer
  simp only [Nat.lt_irrefl, Nat.sub_self, size_eq, Nat.le_zero, false_or, free_zero]
  split
  · rename_i hnil
    have hnil := List.length_eq_zero_iff.mp hnil
    exact ⟨by rw [content_clear, hnil], fun _ => appendable_nil _ (content_clear _)⟩
  · exact ⟨rfl, id⟩

/-- The device can be positioned, which keeps the buffer. -/
theorem position_spec (hle : s.pos ≤ (file B s.device).length)
    (hready : Ready B s.device s.devicePos) :
    ∃ s', s.position = some (true, s') ∧ Same s s' ∧ s'.pos = s.pos ∧ s'.devicePos = s.pos ∧
      Ready B s'.device s'.devicePos ∧ content s'.buffer = content s.buffer ∧
      (Appendable s.buffer → Appendable s'.buffer) := by
  unfold position positionBy
  by_cases hpos : s.pos = s.devicePos
  · rw [if_pos hpos]
    exact ⟨s, rfl, Same.refl s, rfl, hpos.symm, hready, rfl, id⟩
  · rw [if_neg hpos]
    obtain ⟨device, hseek, hfile, hready'⟩ := seek_within s s.pos hle
    obtain ⟨hcontent, happ⟩ := seekBuffer_self { s with device := device, devicePos := s.pos }
    exact ⟨_, hseek, ⟨rfl, rfl, rfl, rfl, rfl, hfile⟩, rfl, rfl, hready', hcontent, happ⟩

/-! ## A reading -/

/-- A reading of `n` bytes that began at `s`. Of the bytes it has taken, `done` were checked for
carriage returns and `pend` were not; `u` are the bytes of the buffer that it has not taken. -/
structure ReadingInv (s : RandomAccess B D) (keep : Bool) (n : Nat) (done pend u : Bytes)
    (r : Reading B D) : Prop where
  same : Same s r.io
  stream : rest s = done ++ (pend ++ (u ++ (file B s.device).drop (r.io.pos + u.length)))
  data : r.data = strip s.text done ++ pend
  readPtr : r.readPtr = (strip s.text done).length
  total : r.data.length + r.maxLength = n
  pos : r.io.pos = s.pos + (done ++ pend).length
  le : r.io.pos + u.length ≤ (file B s.device).length
  buffer : content r.io.buffer = (if keep then done ++ pend else []) ++ u
  bufferPos : keep = true → r.bufferPos = (done ++ pend).length
  devicePos : r.io.devicePos ≤ (file B s.device).length
  ready : Ready B r.io.device r.io.devicePos
  eof : r.deviceAtEof = true → (file B s.device).length ≤ r.io.pos + u.length
  left : left s.text n (rest s) = left s.text (n - (strip s.text done).length)
    (pend ++ (u ++ (file B s.device).drop (r.io.pos + u.length)))
  appendable : keep = true → Appendable r.io.buffer ∨
    n ≤ (strip s.text (content r.io.buffer)).length
  direct : keep = false → s.unbuffered = true → content s.buffer = [] → u = []

/-- The bytes on the device and the bytes that were not checked. -/
def todo (s : RandomAccess B D) (pend u : Bytes) (r : Reading B D) : Nat :=
  2 * ((file B s.device).length - (r.io.pos + u.length)) + u.length + pend.length

variable {keep : Bool} {n : Nat} {done pend u : Bytes} {r : Reading B D}

theorem readBuffer_inv (h : ReadingInv s keep n done pend u r) :
    ∃ pend' u', ReadingInv s keep n done pend' u' (readBuffer keep r) ∧
      (0 < (readBuffer keep r).maxLength → u' = []) ∧
      todo s pend' u' (readBuffer keep r) = todo s pend u r := by
  refine ⟨pend ++ u.take r.maxLength, u.drop r.maxLength, ?_⟩
  have hchunk : (if keep then PushQueue.peek r.io.buffer r.maxLength r.bufferPos
      else (PushQueue.read r.io.buffer r.maxLength).1) = u.take r.maxLength := by
    have hbuffer := h.buffer
    cases keep with
    | true =>
      rw [if_pos rfl] at hbuffer ⊢
      rw [peek_eq, hbuffer, h.bufferPos rfl, List.drop_left]
    | false =>
      simp only [Bool.false_eq_true, if_false, List.nil_append] at hbuffer ⊢
      rw [read_fst, hbuffer]
  have hbuffer : content (readBuffer keep r).io.buffer =
      (if keep then done ++ (pend ++ u.take r.maxLength) else []) ++ u.drop r.maxLength := by
    have hbuffer := h.buffer
    unfold readBuffer
    cases keep with
    | true =>
      rw [if_pos rfl] at hbuffer ⊢
      simp only [if_true, hbuffer, List.append_assoc, List.take_append_drop]
    | false =>
      simp only [Bool.false_eq_true, if_false, List.nil_append, content_read] at hbuffer ⊢
      rw [hbuffer]
  have hlen : (u.take r.maxLength).length + (u.drop r.maxLength).length = u.length := by
    rw [← List.length_append, List.take_append_drop]
  have hpos : (readBuffer keep r).io.pos = r.io.pos + (u.take r.maxLength).length := by
    unfold readBuffer
    simp only [hchunk]
  have hend : (readBuffer keep r).io.pos + (u.drop r.maxLength).length = r.io.pos + u.length := by
    omega
  have hdata : (readBuffer keep r).data = r.data ++ u.take r.maxLength := by
    unfold readBuffer
    simp only [hchunk]
  have hmax : (readBuffer keep r).maxLength = r.maxLength - (u.take r.maxLength).length := by
    unfold readBuffer
    simp only [hchunk]
  have htaken : (u.take r.maxLength).length ≤ r.maxLength := List.length_take_le _ _
  have htotal := h.total
  have hstream : pend ++ u.take r.maxLength ++ (u.drop r.maxLength ++
      (file B s.device).drop ((readBuffer keep r).io.pos + (u.drop r.maxLength).length)) =
      pend ++ (u ++ (file B s.device).drop (r.io.pos + u.length)) := by
    rw [hend, List.append_assoc, ← List.append_assoc (u.take _), List.take_append_drop]
  refine ⟨⟨h.same.trans ⟨rfl, rfl, rfl, rfl, rfl, rfl⟩, ?_, ?_, h.readPtr, ?_, ?_, ?_, hbuffer, ?_,
    h.devicePos, h.ready, ?_, ?_, ?_, ?_⟩, ?_, ?_⟩
  · rw [h.stream, hstream]
  · rw [hdata, h.data, List.append_assoc]
  · rw [hdata, hmax, List.length_append]
    omega
  · rw [hpos, h.pos]
    simp only [List.length_append]
    omega
  · rw [hend]
    exact h.le
  · intro hk
    have hold := h.bufferPos hk
    have hnew : (readBuffer keep r).bufferPos = r.bufferPos + (u.take r.maxLength).length := by
      unfold readBuffer
      simp only [hchunk]
    rw [hnew, hold]
    simp only [List.length_append]
    omega
  · rw [hend]
    exact h.eof
  · rw [hstream]
    exact h.left
  · intro hk
    have happ := h.appendable hk
    subst hk
    exact happ
  · intro hk hun hnil
    rw [h.direct hk hun hnil, List.drop_nil]
  · intro hm
    rw [hmax, List.length_take] at hm
    exact List.drop_of_length_le (by omega)
  · unfold todo
    rw [hend, List.length_append]
    omega

/-- The carriage returns of the bytes that were not checked are removed, or there are none. -/
theorem removeReturns_inv (h : ReadingInv s keep n done pend u r)
    (hend : r.maxLength = 0 ∨ u ++ (file B s.device).drop (r.io.pos + u.length) = []) :
    (∃ r', removeReturns r = .next r' ∧ r' = r ∧ r.data = strip s.text (done ++ pend) ∧
      left s.text n (rest s) = u ++ (file B s.device).drop (r.io.pos + u.length)) ∨
    ∃ r', removeReturns r = .again r' ∧ ReadingInv s keep n (done ++ pend) [] u r' ∧
      todo s [] u r' < todo s pend u r := by
  have hlen : r.data.length - r.readPtr = pend.length := by
    rw [h.data, h.readPtr, List.length_append, Nat.add_sub_cancel_left]
  unfold removeReturns
  by_cases hmore : r.io.text = true ∧ pend ≠ []
  · have hpos := List.length_pos_iff.mpr hmore.2
    have hcond : (r.io.text && decide (r.readPtr < r.data.length)) = true := by
      simp only [hmore.1, Bool.true_and, decide_eq_true_eq]
      omega
    have htext : s.text = true := h.same.text.symm.trans hmore.1
    rw [if_pos hcond]
    have hkept : (r.data.drop r.readPtr).filter (· ≠ carriageReturn) = strip s.text pend := by
      rw [h.data, h.readPtr, List.drop_left, htext]
      rfl
    have htake : r.data.take r.readPtr = strip s.text done := by
      rw [h.data, h.readPtr, List.take_left]
    have hle := @strip_length_le s.text pend
    have htotal := h.total
    rw [h.data, List.length_append] at htotal
    refine .inr ⟨_, rfl, ⟨h.same, ?_, ?_, ?_, ?_, ?_, h.le, ?_, ?_, h.devicePos, h.ready, h.eof, ?_,
      h.appendable, h.direct⟩, ?_⟩
    · rw [h.stream]
      simp only [List.append_assoc, List.nil_append]
    · simp only [hkept, htake, strip_append, List.append_nil]
    · simp only [hkept, strip_append, List.length_append]
      rw [h.readPtr]
    · simp only [hkept, htake, hlen, List.length_append]
      omega
    · simp only [List.append_nil]
      exact h.pos
    · simp only [List.append_nil]
      exact h.buffer
    · intro hk
      simp only [List.append_nil]
      exact h.bufferPos hk
    · rw [h.left, left_append pend _ (by omega), strip_append, List.length_append, Nat.sub_sub,
        List.nil_append]
    · unfold todo
      simp only [List.length_nil]
      omega
  · have hnone : strip s.text pend = pend := by
      rw [not_and_or, Bool.not_eq_true, ne_eq, not_not, h.same.text] at hmore
      rcases hmore with htext | hpend
      · rw [htext]
        rfl
      · rw [hpend, strip_nil]
    have hcond : ¬ (r.io.text && decide (r.readPtr < r.data.length)) = true := by
      intro hcond
      simp only [Bool.and_eq_true, decide_eq_true_eq] at hcond
      refine hmore ⟨hcond.1, List.length_pos_iff.mp (by omega)⟩
    rw [if_neg hcond]
    have htotal := h.total
    rw [h.data, List.length_append] at htotal
    refine .inl ⟨r, rfl, rfl, by rw [h.data, strip_append, hnone], ?_⟩
    rw [h.left, left_append pend _ (by omega), hnone]
    rcases hend with hzero | hnil
    · rw [show n - (strip s.text done).length - pend.length = 0 from by omega, left_zero]
    · rw [hnil, left_nil]

/-- The part of a round is over: what was wanted is there, or nothing is left. -/
def Ended (s : RandomAccess B D) (u : Bytes) (r : Reading B D) : Prop :=
  r.maxLength = 0 ∨ u ++ (file B s.device).drop (r.io.pos + u.length) = []

/-- What the device gives where the reading is. -/
theorem readData_inv (h : ReadingInv s keep n done pend [] r) (hdev : r.io.pos = r.io.devicePos)
    (k : Nat) : ∃ device bytes, Virtual.readData r.io k = (some bytes, { r.io with device := device }) ∧
      file B device = file B r.io.device ∧ Ready B device (r.io.pos + bytes.length) ∧
      bytes.length = min k ((file B s.device).length - r.io.pos) ∧
      (file B s.device).drop r.io.pos =
        bytes ++ (file B s.device).drop (r.io.pos + bytes.length) := by
  obtain ⟨device, hread, hfile, hready⟩ := readData_eq r.io k hdev h.ready
  rw [h.same.file, ← hdev] at hready
  rw [h.same.file, ← hdev] at hread
  have hlen : (((file B s.device).drop r.io.pos).take k).length =
      min k ((file B s.device).length - r.io.pos) := by
    rw [List.length_take, List.length_drop]
  refine ⟨device, _, ?_, hfile, hready, hlen, ?_⟩
  · rw [hread]
    simp only [hdev]
  · rw [← List.drop_drop, hlen]
    rcases Nat.le_total k ((file B s.device).length - r.io.pos) with hm | hm
    · rw [Nat.min_eq_left hm, List.take_append_drop]
    · have hall : ((file B s.device).drop r.io.pos).length ≤ k := by
        rw [List.length_drop]
        exact hm
      rw [Nat.min_eq_right hm, List.take_of_length_le hall, ← List.length_drop, List.drop_length,
        List.append_nil]

theorem readDirect_inv (h : ReadingInv s false n done pend [] r) (hdev : r.io.pos = r.io.devicePos) :
    ∃ pend' r', readDirect r = .next r' ∧ ReadingInv s false n done pend' [] r' ∧ Ended s [] r' ∧
      todo s pend' [] r' ≤ todo s pend [] r := by
  obtain ⟨device, bytes, hread, hfile, hready, hlen, hrest⟩ := readData_inv h hdev r.maxLength
  have hle := h.le
  have htotal := h.total
  have hstream := h.stream
  have hleft := h.left
  rw [List.length_nil, Nat.add_zero] at hle
  simp only [List.nil_append, List.length_nil, Nat.add_zero, hrest] at hstream hleft
  unfold readDirect
  simp only [hread]
  refine ⟨pend ++ bytes, _, rfl, ⟨h.same.trans ⟨rfl, rfl, rfl, rfl, rfl, hfile⟩, ?_, ?_,
    h.readPtr, ?_, ?_, ?_, h.buffer, fun hk => by simp at hk, ?_, ?_, ?_, ?_,
    fun hk => by simp at hk, fun _ _ _ => rfl⟩, ?_, ?_⟩
  · simp only [hstream, List.append_assoc, List.nil_append, List.length_nil, Nat.add_zero]
  · simp only [h.data, List.append_assoc]
  · simp only [List.length_append]
    omega
  · simp only [h.pos, List.length_append]
    omega
  · simp only [List.length_nil]
    omega
  · simp only [← hdev]
    omega
  · simp only [← hdev]
    exact hready
  · intro he
    simp only [ne_eq, decide_eq_true_eq] at he
    simp only [List.length_nil]
    omega
  · simp only [hleft, List.append_assoc, List.nil_append, List.length_nil, Nat.add_zero]
  · unfold Ended
    simp only [List.nil_append, List.length_nil, Nat.add_zero, List.drop_eq_nil_iff]
    omega
  · unfold todo
    simp only [List.length_append, List.length_nil]
    omega

/-- A block of the chunk size can be allocated, and where the bytes are kept it is not empty. -/
def Fills (s : RandomAccess B D) (keep : Bool) : Prop :=
  s.readBufferChunkSize < maxByteArraySize ∧ (keep = true → 0 < s.readBufferChunkSize)

/-- Bytes that are not kept are buffered where less is wanted than that. -/
def Buffers (s : RandomAccess B D) (keep : Bool) (r : Reading B D) : Prop :=
  keep = false → s.unbuffered = false ∧ r.maxLength < s.readBufferChunkSize

/-- How many bytes a buffer is filled with. -/
theorem bytesToBuffer_pos (h : Same s r.io) (hchunk : Fills s keep) (hbuf : Buffers s keep r)
    (hmax : 0 < r.maxLength) {k : Nat}
    (hk : k = if !r.io.unbuffered || decide (r.io.readBufferChunkSize < r.maxLength)
      then r.io.readBufferChunkSize else r.maxLength) : 0 < k ∧ k < maxByteArraySize := by
  rw [hk, h.chunk, h.unbuffered]
  obtain ⟨hless, hpos⟩ := hchunk
  split
  · refine ⟨?_, hless⟩
    cases keep with
    | true => exact hpos rfl
    | false =>
      have := (hbuf rfl).2
      omega
  · rename_i hno
    simp only [Bool.or_eq_true, decide_eq_true_eq, not_or, not_lt] at hno
    omega

theorem readIntoBuffer_inv (h : ReadingInv s keep n done pend [] r) (hchunk : Fills s keep)
    (hbuf : Buffers s keep r) (hdev : r.io.pos = r.io.devicePos) (hmax : 0 < r.maxLength)
    (happ : keep = false → Appendable r.io.buffer) :
    (∃ r', readIntoBuffer r = .next r' ∧ ReadingInv s keep n done pend [] r' ∧ Ended s [] r' ∧
      todo s pend [] r' ≤ todo s pend [] r) ∨
    ∃ u r', readIntoBuffer r = .again r' ∧ ReadingInv s keep n done pend u r' ∧
      todo s pend u r' < todo s pend [] r := by
  obtain ⟨k, hk⟩ : ∃ k, k = if !r.io.unbuffered || decide (r.io.readBufferChunkSize < r.maxLength)
    then r.io.readBufferChunkSize else r.maxLength := ⟨_, rfl⟩
  have hpos := bytesToBuffer_pos h.same hchunk hbuf hmax hk
  obtain ⟨device, bytes, hread, hfile, hready, hlen, hrest⟩ := readData_inv h hdev k
  have hle := h.le
  have htotal := h.total
  have hstream := h.stream
  have hleft := h.left
  have hbuffer := h.buffer
  rw [List.length_nil, Nat.add_zero] at hle
  rw [List.append_nil] at hbuffer
  simp only [List.nil_append, List.length_nil, Nat.add_zero, hrest] at hstream hleft
  -- bytes are only appended where they can be
  have happ' : Appendable r.io.buffer := by
    cases hkeep : keep with
    | false => exact happ hkeep
    | true =>
      refine (h.appendable hkeep).resolve_right fun hn => ?_
      rw [hbuffer, if_pos hkeep, strip_append, List.length_append] at hn
      have := @strip_length_le s.text pend
      rw [h.data, List.length_append] at htotal
      omega
  have hfill := content_fill r.io.buffer k bytes happ' hpos.1 hpos.2 (by omega)
  have happ'' := appendable_fill r.io.buffer k bytes happ' hpos.1 hpos.2 (by omega)
  have hinv : ReadingInv s keep n done pend bytes { r with
      io := { r.io with
        device := device
        buffer := fill r.io.buffer k bytes
        devicePos := r.io.devicePos + bytes.length }
      deviceAtEof := decide (bytes.length ≠ k) } := by
    refine ⟨h.same.trans ⟨rfl, rfl, rfl, rfl, rfl, hfile⟩, hstream, h.data, h.readPtr, htotal, h.pos,
      ?_, ?_, h.bufferPos, ?_, ?_, ?_, hleft, fun _ => .inl happ'', ?_⟩
    · simp only
      omega
    · simp only [hfill, hbuffer]
    · simp only [← hdev]
      omega
    · simp only [← hdev]
      exact hready
    · intro he
      simp only [ne_eq, decide_eq_true_eq] at he
      simp only
      omega
    · intro hk hun'
      exact absurd (hun'.symm.trans (hbuf hk).1) (by simp)
  unfold readIntoBuffer
  simp only [← hk, hread]
  by_cases hsome : bytes.length > 0
  · rw [if_pos hsome]
    refine .inr ⟨bytes, _, rfl, hinv, ?_⟩
    unfold todo
    simp only [List.length_nil]
    omega
  · rw [if_neg hsome]
    have hnil : bytes = [] := List.length_eq_zero_iff.mp (by omega)
    subst hnil
    refine .inl ⟨_, rfl, hinv, .inr ?_, Nat.le_refl _⟩
    simp only [List.nil_append, List.length_nil, Nat.add_zero, List.drop_eq_nil_iff]
    rw [List.length_nil] at hlen
    omega

/-- The device's part of a round, when what the buffer has was taken. -/
theorem readDevice_inv (h : ReadingInv s keep n done pend u r) (hchunk : Fills s keep) (hu : 0 < r.maxLength → u = []) :
    (∃ pend' u' r', readDevice keep r = some (.next r') ∧ ReadingInv s keep n done pend' u' r' ∧
      Ended s u' r' ∧ todo s pend' u' r' ≤ todo s pend u r) ∨
    ∃ u' r', readDevice keep r = some (.again r') ∧ ReadingInv s keep n done pend u' r' ∧
      todo s pend u' r' < todo s pend u r := by
  unfold readDevice
  by_cases hmore : r.maxLength > 0 ∧ r.deviceAtEof = false
  · have hcond : (decide (r.maxLength > 0) && !r.deviceAtEof) = true := by
      simp [hmore.1, hmore.2]
    obtain rfl := hu hmore.1
    have hle := h.le
    rw [List.length_nil, Nat.add_zero, ← h.same.file] at hle
    obtain ⟨io, hio, hsame, hpos, hdev, hready, hcontent, happ⟩ := position_spec hle h.ready
    rw [if_pos hcond, hio]
    have h' : ReadingInv s keep n done pend []
        { r with io := io, madeBufferReadsOnly := false } := by
      refine ⟨h.same.trans hsame, ?_, h.data, h.readPtr, h.total, ?_, ?_, ?_, h.bufferPos, ?_, hready,
        ?_, ?_, ?_, h.direct⟩
      · simp only [hpos]
        exact h.stream
      · rw [hpos]
        exact h.pos
      · simp only [hpos]
        exact h.le
      · simp only [hcontent]
        exact h.buffer
      · simp only [hdev]
        rw [← h.same.file]
        exact hle
      · simp only [hpos]
        exact h.eof
      · simp only [hpos]
        exact h.left
      · intro hk
        simp only [hcontent]
        exact (h.appendable hk).imp_left happ
    have htodo : todo s pend [] { r with io := io, madeBufferReadsOnly := false } =
        todo s pend [] r := by
      unfold todo
      simp only [hpos]
    rw [← htodo]
    simp only [Option.map_some, Option.some.injEq]
    split
    · rename_i hdirect
      have hkeep : keep = false := by
        simp only [Bool.and_eq_true, Bool.not_eq_true'] at hdirect
        exact hdirect.2
      subst hkeep
      obtain ⟨pend', r', hr, hinv, hend, hle⟩ := readDirect_inv h' (hpos.trans hdev.symm)
      exact .inl ⟨pend', [], r', hr, hinv, hend, hle⟩
    · rename_i hnot
      have hbuf : Buffers s keep { r with io := io, madeBufferReadsOnly := false } := by
        intro hkeep
        rw [hkeep, Bool.not_false, Bool.and_true, Bool.or_eq_true, not_or] at hnot
        rw [← (h.same.trans hsame).unbuffered, ← (h.same.trans hsame).chunk]
        simpa using hnot
      have happ' : keep = false → Appendable io.buffer := by
        intro hkeep
        refine appendable_nil _ ?_
        rw [hcontent, h.buffer, hkeep]
        rfl
      rcases readIntoBuffer_inv h' hchunk hbuf (hpos.trans hdev.symm) hmore.1 happ' with
        ⟨r', hr, hinv, hend, hle⟩ | ⟨u', r', hr, hinv, hlt⟩
      · exact .inl ⟨pend, [], r', hr, hinv, hend, hle⟩
      · exact .inr ⟨u', r', hr, hinv, hlt⟩
  · have hcond : ¬ (decide (r.maxLength > 0) && !r.deviceAtEof) = true := by
      simp only [Bool.and_eq_true, decide_eq_true_eq, Bool.not_eq_true']
      exact hmore
    rw [if_neg hcond]
    refine .inl ⟨pend, u, r, rfl, h, ?_, Nat.le_refl _⟩
    rcases Nat.eq_zero_or_pos r.maxLength with hzero | hpos
    · exact .inl hzero
    · have heof : r.deviceAtEof = true := by
        by_contra he
        exact hmore ⟨hpos, by simpa using he⟩
      have hlen := h.eof heof
      obtain rfl := hu hpos
      refine .inr ?_
      rw [List.nil_append, List.drop_eq_nil_iff]
      exact hlen

/-- The reading is over: it has all it can get. -/
structure ReadingDone (s : RandomAccess B D) (keep : Bool) (n : Nat) (r : Reading B D)
    (done pend u : Bytes) : Prop where
  inv : ReadingInv s keep n done pend u r
  data : r.data = (strip s.text (rest s)).take n
  remaining : left s.text n (rest s) = u ++ (file B s.device).drop (r.io.pos + u.length)

theorem readRound_inv (h : ReadingInv s keep n done pend u r) (hchunk : Fills s keep) :
    (∃ pend' u' r', readRound keep r = some (.next r') ∧ ReadingDone s keep n r' done pend' u') ∨
    ∃ done' pend' u' r', readRound keep r = some (.again r') ∧
      ReadingInv s keep n done' pend' u' r' ∧ todo s pend' u' r' < todo s pend u r := by
  obtain ⟨pend₁, u₁, h₁, hu, htodo⟩ := readBuffer_inv h
  unfold readRound
  rw [← htodo]
  rcases readDevice_inv h₁ hchunk hu with
    ⟨pend₂, u₂, r₂, hr, hinv, hend, hle⟩ | ⟨u₂, r₂, hr, hinv, hlt⟩
  · rw [hr, Option.map_some]
    rcases removeReturns_inv hinv hend with
      ⟨r₃, hr₃, rfl, hdata, hleft⟩ | ⟨r₃, hr₃, hinv', hlt⟩
    · refine .inl ⟨pend₂, u₂, r₃, congrArg some hr₃, hinv, ?_, hleft⟩
      have htotal := hinv.total
      rw [hinv.stream, ← List.append_assoc, strip_append, hdata]
      rw [hdata] at htotal
      rcases hend with hzero | hnil
      · rw [List.take_append_of_le_length (by omega), List.take_of_length_le (by omega)]
      · rw [hnil, strip_nil, List.append_nil, List.take_of_length_le (by omega)]
    · exact .inr ⟨done ++ pend₂, [], u₂, r₃, congrArg some hr₃, hinv', by omega⟩
  · rw [hr, Option.map_some]
    exact .inr ⟨done, pend₁, u₂, r₂, rfl, hinv, hlt⟩

/-- The loop ends within the rounds allowed, and has read what there is. -/
theorem readLoop_done (hchunk : Fills s keep) : ∀ (fuel : Nat) {done pend u : Bytes}
    {r : Reading B D}, ReadingInv s keep n done pend u r → todo s pend u r < fuel →
    ∃ done' pend' u' r', readLoop keep fuel r = some (.next r') ∧
      ReadingDone s keep n r' done' pend' u'
  | 0, _, _, _, _, _, hf => by omega
  | fuel + 1, done, pend, u, r, h, hf => by
    rw [readLoop]
    rcases readRound_inv h hchunk with
      ⟨pend', u', r', hr, hdone⟩ | ⟨done', pend', u', r', hr, hinv, hlt⟩
    · exact ⟨done, pend', u', r', by rw [hr]; rfl, hdone⟩
    · rw [hr, Option.bind_some]
      exact readLoop_done hchunk fuel hinv (by omega)

/-- The loop of a reading that begins at `s`. -/
theorem readLoop_start (h : Placed s) (hpos : keep = true → 0 < s.readBufferChunkSize)
    (happ : keep = true → Appendable s.buffer ∨
    n ≤ (strip s.text (content s.buffer)).length) : ∃ done pend u r,
    readLoop keep (2 * Virtual.getSize s + 1) ⟨s, [], 0, n, 0, true, false⟩ = some (.next r) ∧
      ReadingDone s keep n r done pend u := by
  refine @readLoop_done _ _ _ _ _ _ _ ⟨h.chunk, hpos⟩ _ [] [] (content s.buffer) _
    ⟨Same.refl s, rfl, ?_, ?_, ?_, rfl, h.le, ?_, fun _ => rfl, h.devicePos, h.ready,
      fun he => by simp at he, ?_, happ, fun _ _ hnil => hnil⟩ ?_
  · rw [strip_nil, List.append_nil]
  · rw [strip_nil, List.length_nil]
  · simp
  · simp
  · simp only [strip_nil, List.length_nil, Nat.sub_zero, List.nil_append]
    rfl
  · have hle := h.le
    rw [getSize_eq]
    unfold todo
    simp only [List.length_nil]
    omega

/-- The state behind what was read. -/
theorem ReadingDone.placed {done pend u : Bytes} (h : Placed s)
    (hd : ReadingDone s false n r done pend u) : Placed r.io ∧
    rest r.io = left s.text n (rest s) ∧
    r.io.pos + (rest r.io).length = s.pos + (rest s).length ∧
    (s.unbuffered = true → content s.buffer = [] → content r.io.buffer = []) := by
  have hinv := hd.inv
  have hcontent := hinv.buffer
  simp only [Bool.false_eq_true, if_false, List.nil_append] at hcontent
  have hrest : rest r.io = left s.text n (rest s) := by
    rw [hd.remaining, rest, hcontent, hinv.same.file]
  refine ⟨⟨?_, ?_, hinv.ready, ?_⟩, hrest, ?_, ?_⟩
  · rw [hcontent, hinv.same.file]
    exact hinv.le
  · rw [hinv.same.file]
    exact hinv.devicePos
  · rw [hinv.same.chunk]
    exact h.chunk
  · have hstream := hinv.stream
    rw [← hd.remaining, ← hrest] at hstream
    rw [hinv.pos, hstream]
    simp only [List.length_append]
    omega
  · intro hun hnil
    rw [hcontent]
    exact hinv.direct rfl hun hnil

theorem privateRead_spec (h : Placed s) (n : Nat) : ∃ s',
    s.privateRead n false = some (some ((strip s.text (rest s)).take n), s') ∧ Same s s' ∧
      Placed s' ∧ rest s' = left s.text n (rest s) ∧
      s'.pos + (rest s').length = s.pos + (rest s).length ∧
      (s.unbuffered = true → content s.buffer = [] → content s'.buffer = []) := by
  obtain ⟨done, pend, u, r, hloop, hd⟩ := @readLoop_start _ _ _ _ _ false n h
    (fun hk => by simp at hk) (fun hk => by simp at hk)
  obtain ⟨hplaced, hrest, hpos, hnil⟩ := hd.placed h
  obtain ⟨hplaced', hsame, hrest', hpos', hbuffer⟩ :=
    notifyIf_spec hplaced (r.madeBufferReadsOnly && isEmpty r.io.buffer)
  refine ⟨readFinish false false s.pos r, ?_, hd.inv.same.trans hsame, hplaced',
    hrest'.trans hrest, ?_, ?_⟩
  · unfold privateRead
    simp only [Bool.false_and, hloop, Option.bind_some, hd.data]
  · rw [readFinish]
    simp only [Bool.false_eq_true, if_false]
    rw [hrest', hpos']
    exact hpos
  · rw [readFinish]
    simp only [Bool.false_eq_true, if_false]
    rw [hbuffer]
    exact hnil

/-- Reading and seeking back: what the buffer had is lost where bytes were read. -/
theorem privateRead_peek_unbuffered (h : Placed s) (hun : s.unbuffered = true) (n : Nat) : ∃ s',
    s.privateRead n true = some (some ((strip s.text (rest s)).take n), s') ∧ Same s s' ∧
      Placed s' ∧ s'.pos = s.pos ∧
      rest s' = if left s.text n (rest s) = rest s then rest s
        else (file B s.device).drop s.pos := by
  obtain ⟨done, pend, u, r, hloop, hd⟩ := @readLoop_start _ _ _ _ _ false n h
    (fun hk => by simp at hk) (fun hk => by simp at hk)
  obtain ⟨hplaced, hrest, hpos, -⟩ := hd.placed h
  have hinv := hd.inv
  have hback : Placed (r.io.seekBuffer s.pos) ∧ rest (r.io.seekBuffer s.pos) =
      if left s.text n (rest s) = rest s then rest s else (file B s.device).drop s.pos := by
    by_cases hsame : left s.text n (rest s) = rest s
    · rw [if_pos hsame]
      rw [hrest, hsame] at hpos
      have hp : r.io.pos = s.pos := by omega
      obtain ⟨hcontent, -⟩ := seekBuffer_self r.io
      rw [hp] at hcontent
      refine ⟨⟨?_, hplaced.devicePos, hplaced.ready, hplaced.chunk⟩, ?_⟩
      · rw [hcontent]
        have := hplaced.le
        rw [hp] at this
        exact this
      · have hr := hrest.trans hsame
        rw [rest, hp] at hr
        rw [rest, hcontent]
        exact hr
    · rw [if_neg hsame]
      have hlt : s.pos < r.io.pos := by
        have hlen := (@left_suffix s.text n (rest s)).length_le
        have hne : (left s.text n (rest s)).length ≠ (rest s).length := fun he =>
          hsame ((left_suffix n (rest s)).eq_of_length he)
        rw [hrest] at hpos
        omega
      have hcontent : content (r.io.seekBuffer s.pos).buffer = [] := by
        unfold seekBuffer
        simp only [if_pos (Or.inl hlt : s.pos < r.io.pos ∨ _), content_clear]
      have hle := h.le
      refine ⟨⟨?_, hplaced.devicePos, hplaced.ready, hplaced.chunk⟩, ?_⟩
      · rw [hcontent, List.length_nil]
        show s.pos + 0 ≤ (file B r.io.device).length
        rw [hinv.same.file]
        omega
      · rw [rest, hcontent, ← hinv.same.file]
        rfl
  have hsame : Same s (r.io.seekBuffer s.pos) :=
    hinv.same.trans ⟨rfl, rfl, rfl, rfl, rfl, rfl⟩
  obtain ⟨hplaced', hsame', hrest', hpos', -⟩ := notifyIf_spec hback.1
    (r.madeBufferReadsOnly && isEmpty (r.io.seekBuffer s.pos).buffer)
  refine ⟨readFinish false true s.pos r, ?_, hsame.trans hsame', hplaced', hpos',
    hrest'.trans hback.2⟩
  unfold privateRead
  simp only [hun, Bool.not_true, Bool.and_false, hloop, Option.bind_some, hd.data]

/-- Looking at bytes that stay in the buffer, as far as it can be filled. -/
theorem privateRead_peek_buffered (h : Placed s) (hun : s.unbuffered = false)
    (hchunk : 0 < s.readBufferChunkSize) (n : Nat) (happ : Appendable s.buffer ∨ n ≤ (strip s.text (content s.buffer)).length) : ∃ s',
    s.privateRead n true = some (some ((strip s.text (rest s)).take n), s') ∧ Same s s' ∧
      Placed s' ∧ s'.pos = s.pos ∧ rest s' = rest s := by
  obtain ⟨done, pend, u, r, hloop, hd⟩ := @readLoop_start _ _ _ _ _ true n h (fun _ => hchunk)
    (fun _ => happ)
  have hinv := hd.inv
  have hcontent := hinv.buffer
  rw [if_pos rfl] at hcontent
  have hpos := hinv.pos
  have hend : s.pos + (content r.io.buffer).length = r.io.pos + u.length := by
    rw [hcontent, List.length_append]
    omega
  have hplaced : Placed { r.io with pos := s.pos } := by
    refine ⟨?_, ?_, hinv.ready, ?_⟩
    · show s.pos + (content r.io.buffer).length ≤ (file B r.io.device).length
      rw [hend, hinv.same.file]
      exact hinv.le
    · show r.io.devicePos ≤ (file B r.io.device).length
      rw [hinv.same.file]
      exact hinv.devicePos
    · show r.io.readBufferChunkSize < maxByteArraySize
      rw [hinv.same.chunk]
      exact h.chunk
  have hrest : rest { r.io with pos := s.pos } = rest s := by
    rw [rest, hinv.stream]
    show content r.io.buffer ++ (file B r.io.device).drop
      (s.pos + (content r.io.buffer).length) = _
    rw [hend, hinv.same.file, hcontent]
    simp only [List.append_assoc]
  obtain ⟨hplaced', hsame', hrest', hpos', -⟩ := notifyIf_spec hplaced
    (r.madeBufferReadsOnly && isEmpty r.io.buffer)
  have hsame : Same s { r.io with pos := s.pos } := hinv.same.trans ⟨rfl, rfl, rfl, rfl, rfl, rfl⟩
  refine ⟨readFinish true true s.pos r, ?_, hsame.trans hsame', hplaced', hpos',
    hrest'.trans hrest⟩
  unfold privateRead
  simp only [hun, Bool.not_false, Bool.and_self, hloop, Option.bind_some, hd.data]

/-! ## The operations of a reader -/

/-- The device went on in what is before it. -/
structure Moved (s s' : RandomAccess B D) : Prop where
  same : Same s s'
  placed : Placed s'
  pos : s'.pos + (rest s').length = s.pos + (rest s).length
  empty : s.unbuffered = true → content s.buffer = [] → content s'.buffer = []

theorem Moved.refl (h : Placed s) : Moved s s := ⟨Same.refl s, h, rfl, fun _ => id⟩

theorem Moved.trans {s₁ s₂ : RandomAccess B D} (h : Moved s s₁) (h' : Moved s₁ s₂) : Moved s s₂ :=
  ⟨h.same.trans h'.same, h'.placed, h'.pos.trans h.pos,
    fun hun hnil => h'.empty (h.same.unbuffered.trans hun) (h.empty hun hnil)⟩

/-- The device may change as long as its file and its position do not. -/
theorem Moved.device {s' : RandomAccess B D} (h : Moved s s') {device : D}
    (hfile : file B device = file B s'.device) (hready : Ready B device s'.devicePos) :
    Moved s { s' with device := device } ∧ rest { s' with device := device } = rest s' := by
  have hrest : rest { s' with device := device } = rest s' := by
    rw [rest, rest, hfile]
  refine ⟨⟨h.same.trans ⟨rfl, rfl, rfl, rfl, rfl, hfile⟩, ⟨?_, ?_, hready, h.placed.chunk⟩, ?_,
    h.empty⟩, hrest⟩
  · rw [hfile]
    exact h.placed.le
  · rw [hfile]
    exact h.placed.devicePos
  · rw [hrest]
    exact h.pos

/-- A byte is taken from the buffer. -/
theorem takeByte_spec (h : Placed s) {c : UInt8} {l : Bytes} (hc : content s.buffer = c :: l) :
    let s' := { s with buffer := free s.buffer 1, pos := s.pos + 1 }
    Moved s s' ∧ content s'.buffer = l ∧ rest s = c :: rest s' := by
  intro s'
  have hcontent : content s'.buffer = l := by
    show content (free s.buffer 1) = l
    rw [content_free _ _ (by rw [hc]; simp), hc]
    rfl
  have hrest : rest s = c :: rest s' := by
    rw [rest, rest, hcontent, hc]
    simp only [List.cons_append, List.length_cons, s']
    rw [Nat.add_assoc s.pos 1, Nat.add_comm 1]
  have hle := h.le
  rw [hc, List.length_cons] at hle
  refine ⟨⟨⟨rfl, rfl, rfl, rfl, rfl, rfl⟩, ⟨?_, h.devicePos, h.ready, h.chunk⟩, ?_, ?_⟩, hcontent,
    hrest⟩
  · rw [hcontent]
    simp only [s']
    omega
  · rw [hrest, List.length_cons]
    simp only [s']
    omega
  · intro _ hnil
    rw [hc] at hnil
    simp at hnil

/-- The shortcut finds the next byte, or it removes carriage returns only. -/
theorem readChar_spec : ∀ (fuel : Nat) {s : RandomAccess B D}, Placed s →
    (content s.buffer).length ≤ fuel →
    (∃ c s', s.readChar fuel = (some c, s') ∧ Moved s s' ∧
      (strip s.text (rest s)).take 1 = [c] ∧ rest s' = left s.text 1 (rest s)) ∨
    ∃ s', s.readChar fuel = (none, s') ∧ Moved s s' ∧
      strip s.text (rest s') = strip s.text (rest s) ∧
      left s.text 1 (rest s') = left s.text 1 (rest s)
  | 0, s, h, _ => .inr ⟨s, rfl, Moved.refl h, rfl, rfl⟩
  | fuel + 1, s, h, hlen => by
    rw [readChar, peek_eq, List.drop_zero]
    rcases hc : content s.buffer with - | ⟨c, l⟩
    · exact .inr ⟨s, rfl, Moved.refl h, rfl, rfl⟩
    · obtain ⟨hmoved, hcontent, hrest⟩ := takeByte_spec h hc
      rw [hrest, strip_cons, left]
      simp only [List.take_succ_cons]
      by_cases hcr : c = carriageReturn ∧ s.text = true
      · have hcr' : s.text = true ∧ c = carriageReturn := hcr.symm
        simp only [if_pos hcr, if_pos hcr']
        rw [hc, List.length_cons] at hlen
        rcases readChar_spec fuel hmoved.placed (by rw [hcontent]; omega) with
          ⟨c', s', hread, hmoved', htake, hleft⟩ | ⟨s', hread, hmoved', hstrip, hleft⟩
        · exact .inl ⟨c', s', hread, hmoved.trans hmoved', htake, hleft⟩
        · exact .inr ⟨s', hread, hmoved.trans hmoved', hstrip, hleft⟩
      · have hcr' : ¬ (s.text = true ∧ c = carriageReturn) := fun hcr' => hcr hcr'.symm
        simp only [if_neg hcr, if_neg hcr', left_zero]
        obtain ⟨hplaced, hsame, hrest', hpos, hbuffer⟩ := notifyIf_spec hmoved.placed
          (isEmpty (free s.buffer 1))
        refine .inl ⟨c, _, rfl, hmoved.trans ⟨hsame, hplaced, by rw [hrest', hpos], ?_⟩, rfl, hrest'⟩
        rw [hbuffer]
        exact fun _ => id

theorem read_spec (h : Placed s) (hr : s.readable = true) (n : Nat) : ∃ s',
    s.read n = some (some ((strip s.text (rest s)).take n), s') ∧ Moved s s' ∧
      rest s' = left s.text n (rest s) := by
  have hchecked : ∀ {s : RandomAccess B D}, Placed s → s.readable = true → ∃ s',
      s.readChecked n = some (some ((strip s.text (rest s)).take n), s') ∧ Moved s s' ∧
        rest s' = left s.text n (rest s) := by
    intro s h hr
    obtain ⟨s', hread, hsame, hplaced, hrest, hpos, hnil⟩ := privateRead_spec h n
    refine ⟨s', ?_, ⟨hsame, hplaced, hpos, hnil⟩, hrest⟩
    have hok : ¬ ((n : Int) < 0 ∨ ¬ s.readable = true) := by
      simp [hr]
    rw [readChecked, if_neg hok, Int.toNat_natCast]
    exact hread
  unfold read
  by_cases hone : (n : Int) = 1
  · obtain rfl : n = 1 := by omega
    rw [if_pos hone]
    rcases readChar_spec (size s.buffer) h (by rw [size_eq]) with
      ⟨c, s', hread, hmoved, htake, hleft⟩ | ⟨s₁, hread, hmoved, hstrip, hleft⟩
    · rw [hread]
      exact ⟨s', by rw [htake], hmoved, hleft⟩
    · rw [hread]
      have hsame := hmoved.same
      obtain ⟨s', hread', hmoved', hrest⟩ := hchecked hmoved.placed (hsame.readable.trans hr)
      rw [hsame.text, hstrip] at hread'
      rw [hsame.text, hleft] at hrest
      exact ⟨s', hread', hmoved.trans hmoved', hrest⟩
  · rw [if_neg hone]
    exact hchecked h hr

/-- A seek within the file: backwards the buffer is dropped, forwards its first bytes are. -/
theorem seek_spec (h : Placed s) {pos : Nat} (hle : pos ≤ (file B s.device).length) : ∃ s',
    Virtual.seek s (pos : Int) = some (true, s') ∧ Same s s' ∧ Placed s' ∧ s'.pos = pos ∧
      content s'.buffer =
        (if pos < s.pos then [] else (content s.buffer).drop (pos - s.pos)) ∧
      rest s' = if pos < s.pos then (file B s.device).drop pos
        else (rest s).drop (pos - s.pos) := by
  obtain ⟨device, hseek, hfile, hready⟩ := seek_within s pos hle
  have hcontent := content_seekBuffer { s with device := device, devicePos := pos } pos
  have hin := h.le
  refine ⟨_, hseek, ⟨rfl, rfl, rfl, rfl, rfl, hfile⟩, ⟨?_, ?_, hready, h.chunk⟩, rfl, hcontent, ?_⟩
  · rw [hcontent]
    show pos + _ ≤ (file B device).length
    rw [hfile]
    split
    · exact hle
    · rw [List.length_drop]
      simp only at *
      omega
  · show pos ≤ (file B device).length
    rw [hfile]
    exact hle
  · rw [rest, hcontent]
    show _ ++ (file B device).drop (pos + _) = _
    rw [hfile]
    by_cases hback : pos < s.pos
    · simp only [if_pos hback]
      rfl
    · simp only [if_neg hback]
      rw [rest, List.drop_append, List.drop_drop, List.length_drop]
      congr 2
      omega

end RandomAccess

end Libpdk.Io
