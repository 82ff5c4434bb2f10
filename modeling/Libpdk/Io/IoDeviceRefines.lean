import Libpdk.Io.ByteFile

/-!
# A device is a cursor over its file

For every device that implements a byte file, every queue of bytes, chunk size and
open mode, each operation does to the device what it does to a cursor
(`perform_holds`); `run_refines` is the same of every sequence of operations.
-/
namespace Libpdk.Io

open ByteQueue

set_option linter.unusedSectionVars false

namespace IoDevice

variable {B D : Type} [ByteQueue B] [ByteFileDevice D]

open ByteFileDevice

/-- The device is where the cursor is. -/
structure Holds (s : IoDevice B D) (c : Cursor) : Prop where
  onFile : Over s c.file c.pos
  pos : s.pos = c.pos
  le : c.pos ≤ c.file.length
  readable : s.readable = c.readable
  writable : s.writable = c.writable
  unreadable : c.readable = false → content s.buffer = []
  saved : c.saved = if s.transactionStarted then some s.transactionPos else none
  saved_le : ∀ p, c.saved = some p → p ≤ c.file.length

variable {s s' : IoDevice B D} {c : Cursor}

theorem Holds.move (h : Holds s c) (hs : Same s s') {p : Nat} (ho : Over s' c.file p)
    (hpos : s'.pos = p) (hp : p ≤ c.file.length)
    (hr : c.readable = false → content s'.buffer = []) : Holds s' { c with pos := p } where
  onFile := ho
  pos := hpos
  le := hp
  readable := hs.readable.trans h.readable
  writable := hs.writable.trans h.writable
  unreadable := hr
  saved := by rw [hs.started, hs.transactionPos]; exact h.saved
  saved_le := h.saved_le

theorem Holds.readable_of_buffer (h : Holds s c) (hne : content s.buffer ≠ []) :
    c.readable = true := by
  by_contra hr
  exact hne (h.unreadable (by simpa using hr))

theorem Holds.notifyIf (h : Holds s c) (empty : Bool) : Holds (s.notifyIf empty) c := by
  have hs := notifyIf_same s empty
  exact h.move hs (h.onFile.notifyIf empty) (by rw [notifyIf_pos, h.pos]) h.le
    (by rw [notifyIf_buffer]; exact h.unreadable)

theorem rest_length (c : Cursor) : c.rest.length = c.file.length - c.pos := List.length_drop

theorem take_le (h : Holds s c) (n : Nat) : c.pos + (c.rest.take n).length ≤ c.file.length := by
  have := h.le
  rw [List.length_take, rest_length]
  omega

/-! ## Reading -/

theorem readData_holds (h : Holds s c) (hr : c.readable = true) (n : Nat) (peeking : Bool) :
    ∃ s', s.readData n peeking = some (some (c.rest.take n), s') ∧
      Holds s' (if peeking then c else c.past (c.rest.take n)) := by
  have hunr {io : IoDevice B D} : c.readable = false → content io.buffer = [] := fun hr' =>
    absurd (hr.symm.trans hr') (by simp)
  have hkeep : s.keepDataInBuffer peeking = (peeking && !s.unbuffered) := by
    rw [keepDataInBuffer, isSequential_eq]
    rfl
  generalize hk : s.keepDataInBuffer peeking = keep at hkeep
  have hinv : ReadingInv s c.file c.pos n keep ⟨s, [], n, 0, true, false⟩ := by
    refine ⟨Same.refl s, ?_, by simp, by simp, h.pos, fun _ => ⟨rfl, Nat.zero_le _⟩,
      fun he => absurd he (by simp)⟩
    have hstart : (if keep then c.pos else s.pos) = c.pos := by
      rw [h.pos]
      split <;> rfl
    simp only [hstart]
    exact h.onFile
  obtain ⟨r, hloop, hdone⟩ := readLoop_done h.le (n + 2) hinv (.inl (le_refl _))
  have hdata : r.data = c.rest.take n := hdone.data
  have hle := take_le h n
  rw [← hdata] at hle
  refine ⟨readFinish keep peeking s.pos r, ?_, ?_⟩
  · rw [readData, hk, isSequential_eq]
    simp only [Bool.false_and, Bool.false_eq_true, if_false, hloop, hdata]
  rw [readFinish, h.pos]
  have hover := hdone.onFile
  have hsame := hdone.same
  cases peeking with
  | true =>
    simp only [if_true]
    split
    · rename_i hk'
      rw [if_pos hk'] at hover
      have hs : Same s { r.io with pos := c.pos } :=
        hsame.trans ⟨rfl, rfl, rfl, rfl, rfl, rfl⟩
      refine (h.move hs (p := c.pos) ?_ rfl h.le hunr).notifyIf _
      exact ⟨hover.file, hover.device, hover.device_le, hover.buffer, hover.chunk⟩
    · rename_i hk'
      rw [if_neg hk'] at hover
      refine (h.move (hsame.trans (seekBuffer_same _ _)) (p := c.pos) ?_ rfl h.le hunr).notifyIf _
      exact seekBuffer_over hover c.pos
  | false =>
    rw [Bool.false_and] at hkeep
    subst hkeep
    simp only [Bool.false_eq_true, if_false] at hover ⊢
    rw [hdone.pos] at hover
    rw [← hdata]
    exact (h.move hsame hover hdone.pos hle hunr).notifyIf _

theorem read_holds (h : Holds s c) (n : Int) :
    ∃ s', s.read n = some ((c.read n).1, s') ∧ Holds s' (c.read n).2 := by
  rw [read, isSequential_eq]
  simp only [Bool.false_eq_true, false_and, not_false_iff, true_and]
  split
  · -- the shortcut: the buffer has a byte, so the device is readable
    rename_i hone
    obtain ⟨rfl, hne⟩ := hone
    have hne : content s.buffer ≠ [] := fun e => hne ((isEmpty_eq_true _).mpr e)
    have hr := h.readable_of_buffer hne
    have hpre := h.onFile.buffer
    have hlen : 0 < (content s.buffer).length := List.length_pos_iff.mpr hne
    have hchar : (content s.buffer).take 1 = c.rest.take 1 := by
      rw [List.prefix_iff_eq_take.mp hpre, List.take_take, Nat.min_eq_left hlen]
      rfl
    have hone : (c.rest.take 1).length = 1 := by
      rw [← hchar, List.length_take]
      omega
    refine ⟨s.readChar.2, ?_, ?_⟩
    · simp [readChar, Cursor.read, hr, hchar]
    · have hle := take_le h 1
      rw [hone] at hle
      have hc : (c.read 1).2 = { c with pos := c.pos + 1 } := by
        simp [Cursor.read, hr, Cursor.past, Cursor.advance, hone]
      have hs : Same s { s with
          buffer := free s.buffer 1, pos := if s.isSequential then s.pos else s.pos + 1 } :=
        ⟨rfl, rfl, rfl, rfl, rfl, rfl⟩
      rw [hc, readChar]
      refine (h.move hs (p := c.pos + 1) ?_ ?_ hle ?_).notifyIf _
      · refine ⟨h.onFile.file, h.onFile.device, h.onFile.device_le, ?_, h.onFile.chunk⟩
        simp only
        rw [content_free _ _ hlen, ← List.drop_drop]
        exact drop_isPrefix hpre 1
      · simp [h.pos]
      · intro hr'
        exact absurd (hr.symm.trans hr') (by simp)
  · split
    · rename_i hbad
      rw [h.readable] at hbad
      exact ⟨s, by rw [Cursor.read, if_pos hbad], by rw [Cursor.read, if_pos hbad]; exact h⟩
    · rename_i hok
      rw [h.readable] at hok
      have hr : c.readable = true := by
        by_contra hr
        exact hok (.inr hr)
      rw [Cursor.read, if_neg hok]
      exact readData_holds h hr n.toNat false

theorem readArray_holds (h : Holds s c) (n : Int) :
    ∃ s', s.readArray n = some ((c.readArray n).1, s') ∧ Holds s' (c.readArray n).2 := by
  rw [readArray]
  split
  · -- the first block as a whole
    rename_i hblock
    obtain ⟨rfl, -, hr⟩ := hblock
    generalize hk : nextDataBlockSize s.buffer = k
    have hr' : c.readable = true := h.readable ▸ hr
    have hlt := nextDataBlockSize_lt s.buffer
    have hle := nextDataBlockSize_le s.buffer
    rw [hk] at hlt hle
    have hpre := h.onFile.buffer
    have hdata : (readBlock s.buffer).1 = c.rest.take k := by
      rw [readBlock_fst, hk, List.prefix_iff_eq_take.mp hpre, List.take_take, Nat.min_eq_left hle]
      rfl
    have hlen : (c.rest.take k).length = k := by
      rw [← hdata, readBlock_fst, hk, List.length_take, Nat.min_eq_left hle]
    have hmin : min (k : Int) (maxByteArraySize - 1) = k := by omega
    have hread : c.read k = (some (c.rest.take k), { c with pos := c.pos + k }) := by
      rw [Cursor.read, if_neg (by simp [hr'])]
      simp [Cursor.past, Cursor.advance, hlen]
    have hpos := take_le h k
    rw [hlen] at hpos
    have hs : Same s { s with
        buffer := (readBlock s.buffer).2,
        pos := if s.isSequential then s.pos else s.pos + (k : Int).toNat } :=
      ⟨rfl, rfl, rfl, rfl, rfl, rfl⟩
    simp only [Cursor.readArray, hmin, hread, Option.getD_some]
    refine ⟨_, by rw [hdata], (h.move hs (p := c.pos + k) ?_ ?_ hpos ?_).notifyIf _⟩
    · refine ⟨h.onFile.file, h.onFile.device, h.onFile.device_le, ?_, h.onFile.chunk⟩
      simp only
      rw [content_readBlock, hk, ← List.drop_drop]
      exact drop_isPrefix hpre k
    · simp [h.pos]
    · intro hr''
      exact absurd (hr'.symm.trans hr'') (by simp)
  · split
    · rename_i hneg
      have hc : c.readArray n = ([], c) := by
        rw [Cursor.readArray, Cursor.read, if_pos (.inl (by omega))]
        rfl
      exact ⟨s, by rw [hc], by rw [hc]; exact h⟩
    · obtain ⟨s', hs', hholds⟩ := read_holds h (min n (maxByteArraySize - 1))
      exact ⟨s', by rw [hs']; rfl, hholds⟩

theorem readAllLoop_nil (h : Holds s c) (hrest : c.rest = []) (chunk fuel : Nat) :
    ∃ s', s.readAllLoop [] chunk (fuel + 1) = some ([], s') ∧ Holds s' c := by
  rw [readAllLoop]
  split
  · exact ⟨s, rfl, h⟩
  · obtain ⟨s', hs', hholds⟩ := read_holds h chunk
    rw [hs', Option.bind_some]
    have hc : (c.read chunk).2 = c := by
      rw [Cursor.read]
      split
      · rfl
      · simp [Cursor.past, Cursor.advance, hrest]
    rw [hc] at hholds
    have hcases : (c.read chunk).1 = none ∨ (c.read chunk).1 = some [] := by
      rw [Cursor.read]
      split
      · exact .inl rfl
      · exact .inr (by simp [hrest])
    rcases hcases with hd | hd <;> rw [hd] <;> exact ⟨s', rfl, hholds⟩

theorem readAll_holds (h : Holds s c) :
    ∃ s', s.readAll = some (c.readAll.1, s') ∧ Holds s' c.readAll.2 := by
  have hsize : RawDevice.getSize s.device = c.file.length := by rw [ByteFileDevice.getSize_eq, h.onFile.file]
  have hlen := rest_length c
  have hle := h.le
  rw [readAll, isSequential_eq]
  simp only [Bool.false_eq_true, if_false, hsize, h.pos]
  split
  · rename_i hzero
    have hrest : c.rest = [] := List.length_eq_zero_iff.mp (by omega)
    have hc : c.readAll = ([], c) := by
      rw [Cursor.readAll]
      split
      · rfl
      · rw [hrest]
        rfl
    rw [hc]
    exact readAllLoop_nil h hrest _ _
  · split
    · rename_i hbig
      have hc : c.readAll = ([], c) := by
        rw [Cursor.readAll, if_pos (.inr (by omega))]
      exact ⟨s, by rw [hc], by rw [hc]; exact h⟩
    · rename_i hfits
      obtain ⟨s', hs', hholds⟩ := read_holds h ((c.file.length : Int) - c.pos)
      have hn : ((c.file.length : Int) - c.pos).toNat = c.rest.length := by omega
      have hc : c.readAll = ((c.read ((c.file.length : Int) - c.pos)).1.getD [],
          (c.read ((c.file.length : Int) - c.pos)).2) := by
        rw [Cursor.readAll, Cursor.read, hn, List.take_length]
        by_cases hr : c.readable = true
        · rw [if_neg (by simp [hr]; omega), if_neg (by simp [hr]; omega)]
          rfl
        · rw [if_pos (.inl hr), if_pos (.inr hr)]
          rfl
      exact ⟨s', by rw [hs', hc]; rfl, by rw [hc]; exact hholds⟩

/-! ## Peeking and skipping -/

theorem peekBytes_holds (h : Holds s c) (n : Int) :
    ∃ s', s.peekBytes n = some (c.peek n, s') ∧ Holds s' c := by
  rw [peekBytes, Cursor.peek, Cursor.read, h.readable]
  split
  · exact ⟨s, rfl, h⟩
  · rename_i hok
    exact readData_holds h (by simp only [not_or, not_not] at hok; exact hok.2) n.toNat true

theorem peekArray_holds (h : Holds s c) (n : Int) :
    ∃ s', s.peekArray n = some (c.peekArray n, s') ∧ Holds s' c := by
  rw [peekArray, Cursor.peekArray, Cursor.readArray, Cursor.read, h.readable]
  split
  · rename_i hbad
    have hbad' : min n (maxByteArraySize - 1) < 0 ∨ ¬ c.readable = true :=
      hbad.imp_left fun hn => by omega
    rw [if_pos hbad']
    exact ⟨s, rfl, h⟩
  · rename_i hok
    simp only [not_or, not_not] at hok
    have hok' : ¬ (min n (maxByteArraySize - 1) < 0 ∨ ¬ c.readable = true) := by
      simp only [hok.2, not_true_eq_false, or_false, maxByteArraySize]
      omega
    rw [if_neg hok']
    obtain ⟨s', hs', hholds⟩ :=
      readData_holds h hok.2 (min n (maxByteArraySize - 1)).toNat true
    exact ⟨s', by rw [hs']; rfl, hholds⟩

theorem advance_advance (c : Cursor) (a b : Nat) : (c.advance a).advance b = c.advance (a + b) := by
  simp [Cursor.advance, Nat.add_assoc]

theorem rest_advance (c : Cursor) (n : Nat) : (c.advance n).rest = c.rest.drop n := by
  rw [Cursor.rest, Cursor.rest, List.drop_drop]
  rfl

theorem past_past (c : Cursor) (a b : Bytes) : (c.past a).past b = c.past (a ++ b) := by
  rw [Cursor.past, Cursor.past, advance_advance, Cursor.past, List.length_append]

@[simp] theorem past_nil (c : Cursor) : c.past [] = c := rfl

theorem skipByReadingLoop_holds : ∀ (fuel : Nat) {s : IoDevice B D} {c : Cursor},
    Holds s c → c.readable = true → ∀ readSoFar maxLength : Nat, maxLength < fuel →
    ∃ s', s.skipByReadingLoop readSoFar maxLength fuel =
        some (some (readSoFar + min maxLength c.rest.length), s') ∧
      Holds s' (c.advance (min maxLength c.rest.length))
  | 0, _, _, _, _, _, _, hf => by omega
  | fuel + 1, s, c, h, hr, readSoFar, maxLength, hf => by
    obtain ⟨s', hs', hholds⟩ := readData_holds h hr (min maxLength 4096) false
    simp only [Bool.false_eq_true, if_false, Cursor.past, List.length_take] at hholds
    rw [skipByReadingLoop, hs', Option.bind_some]
    simp only [List.length_take]
    split
    · have hmin : min (min maxLength 4096) c.rest.length = min maxLength c.rest.length := by omega
      rw [hmin] at hholds ⊢
      exact ⟨s', rfl, hholds⟩
    · rename_i hfull
      generalize hk : min (min maxLength 4096) c.rest.length = k at hholds hfull ⊢
      split
      · obtain ⟨s'', hs'', hholds'⟩ := skipByReadingLoop_holds fuel hholds hr (readSoFar + k)
          (maxLength - k) (by omega)
        rw [rest_advance, List.length_drop, advance_advance] at hholds'
        rw [rest_advance, List.length_drop] at hs''
        have hsum : k + min (maxLength - k) (c.rest.length - k) = min maxLength c.rest.length := by
          omega
        rw [hsum] at hholds'
        rw [Nat.add_assoc, hsum] at hs''
        exact ⟨s'', hs'', hholds'⟩
      · have hmin : k = min maxLength c.rest.length := by omega
        rw [← hmin]
        exact ⟨s', rfl, hholds⟩

theorem skipRest_holds (h : Holds s c) (hr : c.readable = true) (skippedSoFar maxLength : Nat) :
    ∃ s', s.skipRest skippedSoFar maxLength =
        some (some (skippedSoFar + min maxLength c.rest.length), s') ∧
      Holds s' (c.advance (min maxLength c.rest.length)) := by
  obtain ⟨s', hs', hholds⟩ := skipByReadingLoop_holds (maxLength + 1) h hr 0 maxLength (by omega)
  refine ⟨s', ?_, hholds⟩
  rw [skipRest, skipByReading, hs', Nat.zero_add]
  rfl

theorem skipInBuffer_holds (h : Holds s c) (n : Nat) :
    Holds (s.skipInBuffer n).2 (c.advance (s.skipInBuffer n).1) ∧
      (s.skipInBuffer n).1 = min n (content s.buffer).length := by
  rw [skipInBuffer]
  split
  · rename_i hempty
    rw [isEmpty_eq_true] at hempty
    exact ⟨h, by simp [hempty]⟩
  · simp only [skip_fst, isSequential_eq, Bool.false_eq_true, if_false]
    refine ⟨?_, trivial⟩
    have hpre := h.onFile.buffer
    have hlen := hpre.length_le
    have hle := h.le
    rw [List.length_drop] at hlen
    have hs : Same s { s with
        buffer := (ByteQueue.skip s.buffer n).2
        pos := s.pos + min n (content s.buffer).length } := ⟨rfl, rfl, rfl, rfl, rfl, rfl⟩
    refine (h.move hs (p := c.pos + min n (content s.buffer).length) ?_ ?_ ?_ ?_).notifyIf _
    · refine ⟨h.onFile.file, h.onFile.device, h.onFile.device_le, ?_, h.onFile.chunk⟩
      simp only [content_skip]
      rw [← List.drop_drop]
      rcases Nat.le_total n (content s.buffer).length with hn | hn
      · rw [Nat.min_eq_left hn]
        exact drop_isPrefix hpre n
      · rw [Nat.min_eq_right hn, List.drop_of_length_le hn]
        exact List.nil_prefix
    · simp [h.pos]
    · omega
    · intro hr
      simp [h.unreadable hr]

theorem skip_holds (h : Holds s c) (n : Int) :
    ∃ s', s.skip n = some ((c.skip n).1, s') ∧ Holds s' (c.skip n).2 := by
  rw [skip, Cursor.skip, h.readable, isSequential_eq]
  split
  · exact ⟨s, rfl, h⟩
  rename_i hok
  have hr : c.readable = true := by simpa using (not_or.mp hok).2
  rw [if_neg (by simp)]
  generalize n.toNat = n
  obtain ⟨hholds, hskipped⟩ := skipInBuffer_holds h n
  have hlen := h.onFile.buffer.length_le
  have hrest := rest_length c
  have hle := h.le
  rw [List.length_drop] at hlen
  simp only
  generalize s.skipInBuffer n = io at hholds hskipped
  obtain ⟨k, s₁⟩ := io
  simp only at hholds hskipped ⊢
  split
  · rename_i hall
    simp only [Bool.and_eq_true, beq_iff_eq] at hall
    have hmin : min n c.rest.length = k := by omega
    rw [hmin]
    exact ⟨s₁, rfl, hholds⟩
  · have hsize : (RawDevice.getSize s₁.device : Int) - s₁.pos = (c.rest.length - k : Nat) := by
      rw [ByteFileDevice.getSize_eq, hholds.onFile.file, hholds.pos]
      simp only [Cursor.advance]
      omega
    rw [hsize, isSequential_eq]
    have hrest₁ : (c.advance k).rest.length = c.rest.length - k := by
      rw [rest_advance, List.length_drop]
    generalize hb : min ((c.rest.length - k : Nat) : Int) ((n - k : Nat) : Int) = b
    split
    · rename_i hpos
      simp only [Bool.not_false, Bool.true_and, decide_eq_true_eq] at hpos
      have hseek : (s₁.pos : Int) + b = ((c.advance k).pos + b.toNat : Nat) := by
        rw [hholds.pos]
        omega
      have hto : (c.advance k).pos + b.toNat ≤ (c.advance k).file.length := by
        simp only [Cursor.advance]
        omega
      have hover := hholds.onFile
      rw [← hholds.pos] at hover
      obtain ⟨s₂, hs₂, hpos₂, hsame, hover₂, -⟩ := seek_within hover hto
      have hholds₂ : Holds s₂ (c.advance (k + b.toNat)) := by
        rw [← advance_advance]
        exact hholds.move hsame hover₂ hpos₂ hto fun hr' => absurd (hr.symm.trans hr') (by simp)
      rw [hseek, hs₂]
      simp only
      split
      · have hmin : min n c.rest.length = k + (n - k) := by omega
        have hadv : k + b.toNat = k + (n - k) := by omega
        rw [hadv] at hholds₂
        rw [hmin]
        exact ⟨s₂, rfl, hholds₂⟩
      · obtain ⟨s₃, hs₃, hholds₃⟩ := skipRest_holds hholds₂ hr (k + b.toNat) (n - k - b.toNat)
        rw [rest_advance, List.length_drop, advance_advance] at hholds₃
        rw [rest_advance, List.length_drop] at hs₃
        have hsum : k + b.toNat + min (n - k - b.toNat) (c.rest.length - (k + b.toNat)) =
            min n c.rest.length := by omega
        rw [hsum] at hs₃ hholds₃
        exact ⟨s₃, hs₃, hholds₃⟩
    · obtain ⟨s₃, hs₃, hholds₃⟩ := skipRest_holds hholds hr k (n - k)
      rw [hrest₁, advance_advance] at hholds₃
      rw [hrest₁] at hs₃
      have hsum : k + min (n - k) (c.rest.length - k) = min n c.rest.length := by omega
      rw [hsum] at hs₃ hholds₃
      exact ⟨s₃, hs₃, hholds₃⟩

/-! ## Lines -/

theorem position_holds (h : Holds s c) : ∃ s', s.position = some s' ∧ Holds s' c := by
  obtain ⟨s', hs', hpos, -, hsame, hcontent, hover⟩ := position_over h.onFile (h.pos ▸ h.le)
  exact ⟨s', hs', h.move hsame hover (hpos.trans h.pos) h.le
    fun hr => hcontent.trans (h.unreadable hr)⟩

theorem readLineLoop_holds : ∀ (n : Nat) {s : IoDevice B D} {c : Cursor}, Holds s c →
    c.readable = true → ∀ data : Bytes, ∃ last s', s.readLineLoop data n =
        some (data ++ upTo newline n c.rest, last, s') ∧
      Holds s' (c.past (upTo newline n c.rest))
  | 0, s, c, h, _, data => ⟨some [], s, by simp [readLineLoop], h⟩
  | n + 1, s, c, h, hr, data => by
    obtain ⟨s', hs', hholds⟩ := read_holds h 1
    have hc : c.read 1 = (some (c.rest.take 1), c.past (c.rest.take 1)) := by
      rw [Cursor.read, if_neg (by simp [hr])]
      rfl
    rw [hc] at hs' hholds
    rw [readLineLoop, hs', Option.bind_some]
    cases hrest : c.rest with
    | nil =>
      rw [hrest] at hholds
      exact ⟨some [], s', by simp, by simpa using hholds⟩
    | cons x l =>
      rw [hrest] at hholds
      simp only [List.take_succ_cons, List.take_zero] at hholds ⊢
      by_cases hx : x = newline
      · refine ⟨some [x], s', by simp [hx, upTo_cons], ?_⟩
        simpa [hx, upTo_cons] using hholds
      · simp only [hx, if_false]
        obtain ⟨last, s'', hs'', hholds'⟩ := readLineLoop_holds n hholds hr (data ++ [x])
        have hnext : (c.past [x]).rest = l := by
          rw [Cursor.past, rest_advance, hrest]
          rfl
        rw [hnext] at hs'' hholds'
        refine ⟨last, s'', ?_, ?_⟩
        · rw [hs'', upTo_cons, if_neg hx, List.append_assoc]
          rfl
        · rw [upTo_cons, if_neg hx]
          rwa [past_past] at hholds'

/-- The part of the line in the buffer, and the cursor behind it. -/
theorem readLineBuffer_holds (h : Holds s c) (n : Nat) :
    (s.readLineBuffer n).1 = upTo newline n (content s.buffer) ∧
      Holds (s.readLineBuffer n).2 (c.past (upTo newline n (content s.buffer))) := by
  rw [readLineBuffer, isSequential_eq]
  simp only [Bool.false_eq_true, false_and, if_false]
  split
  · rename_i hempty
    rw [isEmpty_eq_true] at hempty
    rw [hempty, upTo_nil]
    exact ⟨rfl, h⟩
  · rename_i hempty
    have hpre := h.onFile.buffer
    have hlen := (upTo_isPrefix newline n (content s.buffer)).length_le
    have hfit := hpre.length_le
    have hle := h.le
    rw [List.length_drop] at hfit
    have hr := h.readable_of_buffer fun hnil => hempty ((isEmpty_eq_true _).mpr hnil)
    simp only [readLine_fst]
    refine ⟨trivial, ?_⟩
    generalize isEmpty (ByteQueue.readLine s.buffer newline n).2 = empty
    have hs : Same s { IoDevice.notifyIf
          { s with buffer := (ByteQueue.readLine s.buffer newline n).2 } empty with
        pos := s.pos + (upTo newline n (content s.buffer)).length } := by
      cases empty <;> exact ⟨rfl, rfl, rfl, rfl, rfl, rfl⟩
    rw [notifyIf_pos]
    refine h.move hs ?_ (by simp [h.pos]) (by omega) fun hr' =>
      absurd (hr.symm.trans hr') (by simp)
    have hover : Over { s with buffer := (ByteQueue.readLine s.buffer newline n).2 } c.file
        (c.pos + (upTo newline n (content s.buffer)).length) := by
      refine ⟨h.onFile.file, h.onFile.device, h.onFile.device_le, ?_, h.onFile.chunk⟩
      simp only
      rw [content_readLine, readLine_fst, ← List.drop_drop]
      exact drop_isPrefix hpre _
    have hover' := hover.notifyIf empty
    exact ⟨hover'.file, hover'.device, hover'.device_le, hover'.buffer, hover'.chunk⟩

theorem readLine_holds (h : Holds s c) (n : Int) :
    ∃ s', s.readLine n = some ((c.readLine n).1, s') ∧ Holds s' (c.readLine n).2 := by
  rw [readLine, Cursor.readLine]
  by_cases hn : n < 2
  · rw [if_pos hn, if_pos (.inl hn)]
    exact ⟨s, rfl, h⟩
  rw [if_neg hn]
  have hm : n.toNat - 1 ≠ 0 := by omega
  generalize n.toNat - 1 = m at hm
  obtain ⟨hdata, hholds⟩ := readLineBuffer_holds h m
  have hline := upTo_of_isPrefix (c := newline) (n := m) h.onFile.buffer
  change upTo newline m c.rest = _ at hline
  rw [← hdata] at hholds hline
  simp only
  generalize s.readLineBuffer m = io at hdata hholds hline
  obtain ⟨data, s₁⟩ := io
  simp only at hdata hholds hline ⊢
  by_cases hlast : data.getLast? = some newline
  · rw [if_pos hlast] at hline ⊢
    rw [List.append_nil] at hline
    have hne : data ≠ [] := by
      rintro rfl
      exact absurd hlast (by simp)
    have hr : c.readable = true := by
      apply h.readable_of_buffer
      rintro hnil
      rw [hnil, upTo_nil] at hdata
      exact hne hdata
    rw [hline, if_neg (by simp [hn, hr, hne])]
    exact ⟨s₁, rfl, hholds⟩
  · rw [if_neg hlast] at hline ⊢
    obtain ⟨s₂, hs₂, hholds₂⟩ := position_holds hholds
    rw [hs₂]
    simp only
    by_cases hr : c.readable = true
    · obtain ⟨last, s₃, hs₃, hholds₃⟩ := readLineLoop_holds (m - data.length) hholds₂ hr []
      have hrest : (c.past data).rest = (c.file.drop c.pos).drop data.length := by
        rw [Cursor.past, rest_advance]
        rfl
      rw [hrest] at hs₃ hholds₃
      generalize upTo newline (m - data.length) ((c.file.drop c.pos).drop data.length) = more
        at hline hs₃ hholds₃
      rw [readLineData, hs₃, List.nil_append, hline]
      simp only [isSequential_eq, Bool.false_eq_true, if_false, Option.map_some]
      rw [past_past] at hholds₃
      by_cases hmore : more = []
      · subst hmore
        rw [List.append_nil] at hholds₃ ⊢
        by_cases hd : data = []
        · subst hd
          exact ⟨s₃, by simp, by simpa using hholds₃⟩
        · exact ⟨s₃, by simp [hd, hn, hr], by simpa [hd, hn, hr] using hholds₃⟩
      · exact ⟨s₃, by simp [hmore, hn, hr], by simpa [hmore, hn, hr] using hholds₃⟩
    · have hnil : data = [] := by
        rw [hdata, h.unreadable (by simpa using hr), upTo_nil]
      subst hnil
      have hread : s₂.read 1 = some (none, s₂) := by
        have hempty : isEmpty s₂.buffer = true :=
          (isEmpty_eq_true _).mpr (hholds₂.unreadable (Bool.not_eq_true _ ▸ hr))
        have hr₂ : ¬ s₂.readable = true := by
          rw [hholds₂.readable]
          exact hr
        rw [read, if_neg (by simp [hempty]), if_pos (.inr hr₂)]
      have hk : ∃ k, m - ([] : Bytes).length = k + 1 := ⟨m - 1, by simp; omega⟩
      obtain ⟨k, hk⟩ := hk
      refine ⟨s₂, ?_, ?_⟩
      · rw [readLineData, hk, readLineLoop, hread]
        simp [hr]
      · simpa [hr] using hholds₂

theorem getLast?_append_ne {a b : Bytes} (hb : b ≠ []) : (a ++ b).getLast? = b.getLast? := by
  obtain ⟨x, hx⟩ := Option.isSome_iff_exists.mp (List.getLast?_isSome.mpr hb)
  rw [List.getLast?_append, hx]
  rfl

/-- Reading a line in pieces of the chunk size. -/
theorem readLineArrayLoop_holds (limit : Nat) : ∀ (fuel : Nat) {s : IoDevice B D} {c : Cursor},
    Holds s c → c.readable = true → ∀ result : Bytes, result.length + 1 ≤ limit →
    limit - 1 - result.length < fuel →
    ∃ s', s.readLineArrayLoop limit (1 + result.length) result fuel =
        some (result ++ upTo newline (limit - 1 - result.length) c.rest, s') ∧
      Holds s' (c.past (upTo newline (limit - 1 - result.length) c.rest))
  | 0, _, _, _, _, _, _, hf => by omega
  | fuel + 1, s, c, h, hr, result, hfit, hf => by
    have hk := h.onFile.chunk.1
    rw [readLineArrayLoop]
    generalize s.readBufferChunkSize = k at hk
    generalize hL : limit - 1 - result.length = L at hf
    generalize ha : min L k = a
    have hsize : ((min limit (1 + result.length + k) : Nat) : Int) - result.length = (a + 1 : Nat) := by
      omega
    obtain ⟨s', hs', hholds⟩ := readLine_holds h ((a + 1 : Nat) : Int)
    have hsplit := upTo_split (c := newline) (show a ≤ L by omega) c.rest
    simp only [hsize]
    rw [hs', Option.bind_some]
    rw [Cursor.readLine] at hholds ⊢
    have ha1 : ((a + 1 : Nat) : Int).toNat - 1 = a := by omega
    simp only [ha1] at hholds ⊢
    by_cases hline : upTo newline a c.rest = []
    · -- nothing is left of the line or of the room for it
      rw [if_pos (.inr (.inr hline))] at hholds ⊢
      have hnil : upTo newline L c.rest = [] := by
        rw [upTo_eq_nil] at hline ⊢
        exact hline.imp_left fun h0 => by omega
      rw [hnil, List.append_nil]
      exact ⟨s', rfl, hholds⟩
    · have hpos : a ≠ 0 := fun h0 => hline (by rw [h0, upTo_zero])
      rw [if_neg (by simp [hr, hline]; omega)] at hholds ⊢
      simp only [getLast?_append_ne hline]
      have hle := upTo_length_le newline a c.rest
      split
      · rename_i hagain
        obtain ⟨hfull, hlast⟩ := hagain
        rw [if_neg hlast] at hsplit
        have hlen : (result ++ upTo newline a c.rest).length = result.length + k := by
          rw [List.length_append, hfull]
        have hnext : min limit (1 + result.length + k) =
            1 + (result ++ upTo newline a c.rest).length := by omega
        obtain ⟨s'', hs'', hholds'⟩ := readLineArrayLoop_holds limit fuel hholds hr
          (result ++ upTo newline a c.rest) (by omega) (by omega)
        have hrest : (c.past (upTo newline a c.rest)).rest = c.rest.drop a := by
          rw [Cursor.past, rest_advance]
          congr 1
          omega
        have hL' : limit - 1 - (result ++ upTo newline a c.rest).length = L - a := by omega
        rw [hrest, hL', past_past, ← hsplit] at hholds'
        rw [hrest, hL', List.append_assoc, ← hsplit] at hs''
        rw [hnext]
        exact ⟨s'', hs'', hholds'⟩
      · rename_i hstop
        have hall : upTo newline L c.rest = upTo newline a c.rest := by
          rw [hsplit]
          split
          · rw [List.append_nil]
          · rename_i hlast
            have hlen := upTo_length hlast
            have hdone : upTo newline (L - a) (c.rest.drop a) = [] := by
              rw [upTo_eq_nil, List.drop_eq_nil_iff]
              by_contra hmore
              exact hstop ⟨by omega, hlast⟩
            rw [hdone, List.append_nil]
        rw [hall]
        exact ⟨s', rfl, hholds⟩

theorem readLineArray_holds (h : Holds s c) (n : Int) :
    ∃ s', s.readLineArray n = some ((c.readLineArray n).1, s') ∧
      Holds s' (c.readLineArray n).2 := by
  rw [readLineArray, Cursor.readLineArray]
  split
  · rename_i hneg
    have hc : c.readLine (min n (maxByteArraySize - 1)) = (none, c) := by
      rw [Cursor.readLine, if_pos (.inl (by omega))]
    rw [if_neg (by omega), hc]
    exact ⟨s, rfl, h⟩
  · split
    · have hmax : ((maxByteArraySize : Int) - 1).toNat - 1 = maxByteArraySize - 1 - 1 - 0 := by omega
      simp only
      rw [Cursor.readLine, hmax]
      by_cases hr : c.readable = true
      · obtain ⟨s', hs', hholds⟩ := readLineArrayLoop_holds (maxByteArraySize - 1) maxByteArraySize
          h hr [] (by decide) (by simp [maxByteArraySize])
        simp only [List.length_nil, Nat.add_zero, List.nil_append] at hs' hholds
        refine ⟨s', ?_, ?_⟩
        · rw [hs']
          split
          · rename_i hbad
            have hnil := (hbad.resolve_left (by decide)).resolve_left (by simp [hr])
            rw [hnil]
            rfl
          · rfl
        · split
          · rename_i hbad
            have hnil := (hbad.resolve_left (by decide)).resolve_left (by simp [hr])
            rw [hnil] at hholds
            exact hholds
          · exact hholds
      · rw [if_pos (.inr (.inl hr))]
        have hline := readLine_holds h
          ((min (maxByteArraySize - 1) (1 + s.readBufferChunkSize) : Nat) : Int)
        have hnone : c.readLine ((min (maxByteArraySize - 1) (1 + s.readBufferChunkSize) : Nat) : Int)
            = (none, c) := by
          rw [Cursor.readLine, if_pos (.inr (.inl hr))]
        rw [hnone] at hline
        obtain ⟨s', hs', hholds⟩ := hline
        refine ⟨s', ?_, hholds⟩
        have hfuel : maxByteArraySize = (maxByteArraySize - 1) + 1 := rfl
        conv_lhs => rw [hfuel, readLineArrayLoop]
        simp only [List.length_nil, Int.ofNat_zero, Int.sub_zero, Nat.add_sub_cancel]
        rw [hs']
        rfl
    · obtain ⟨s', hs', hholds⟩ := readLine_holds h (min n (maxByteArraySize - 1))
      exact ⟨s', by rw [hs']; rfl, hholds⟩

/-! ## Writing, seeking and transactions -/

theorem length_overwrite (file data : Bytes) {pos : Nat} (h : pos ≤ file.length) :
    (Cursor.overwrite file pos data).length = max file.length (pos + data.length) := by
  simp only [Cursor.overwrite, List.length_append, List.length_take, List.length_drop]
  omega

theorem overwrite_nil (file : Bytes) (pos : Nat) : Cursor.overwrite file pos [] = file := by
  simp [Cursor.overwrite]

/-- What is behind the bytes written stays. -/
theorem drop_overwrite (file data : Bytes) {pos : Nat} (h : pos ≤ file.length) :
    (Cursor.overwrite file pos data).drop (pos + data.length) = file.drop (pos + data.length) := by
  have hlen : (file.take pos ++ data).length = pos + data.length := by
    rw [List.length_append, List.length_take, Nat.min_eq_left h]
  rw [Cursor.overwrite, ← hlen, List.drop_left]

theorem write_holds (h : Holds s c) (data : Bytes) :
    (s.write data).1 = (c.write data).1 ∧ Holds (s.write data).2 (c.write data).2 := by
  rw [write, Cursor.write, h.writable]
  split
  · exact ⟨rfl, h⟩
  obtain ⟨s₁, hs₁, hpos, hdev, hsame, hcontent, hover⟩ := position_over h.onFile (h.pos ▸ h.le)
  have hwrite : RawDevice.writeData s₁.device data =
      (some data.length, (RawDevice.writeData s₁.device data).2) :=
    Prod.ext (writeData_fst _ _) rfl
  have hoff : offset s₁.device = c.pos := hover.device.trans (hdev.trans h.pos)
  have hle : offset s₁.device ≤ (file s₁.device).length := by
    rw [hoff, hover.file]
    exact h.le
  have hfile := file_writeData s₁.device data hle
  have hoff' := offset_writeData s₁.device data
  rw [hoff, hover.file] at hfile
  rw [hoff] at hoff'
  have hlen := length_overwrite c.file data h.le
  rw [hs₁]
  simp only
  rw [hwrite]
  simp only [isSequential_eq, Bool.not_false, Bool.true_and, decide_eq_true_eq]
  generalize (RawDevice.writeData s₁.device data).2 = d at hfile hoff'
  have hsaved : ∀ p, c.saved = some p → p ≤ (Cursor.overwrite c.file c.pos data).length := by
    intro p hp
    have := h.saved_le p hp
    omega
  have hposle := h.le
  split
  · refine ⟨rfl, ⟨hfile, ?_, ?_, ?_, hover.chunk⟩, ?_, ?_, hsame.readable.trans h.readable,
      hsame.writable.trans h.writable, ?_, ?_, hsaved⟩
    · simp only [hoff', hdev, h.pos]
    · simp only [hdev, h.pos]
      omega
    · simp only [content_skip, hcontent]
      rw [drop_overwrite _ _ h.le, ← List.drop_drop]
      exact drop_isPrefix h.onFile.buffer _
    · simp only [hpos, h.pos]
    · simp only
      omega
    · intro hr
      simp [hcontent, h.unreadable hr]
    · simp only [hsame.started, hsame.transactionPos]
      exact h.saved
  · rename_i hzero
    have hnil : data = [] := List.length_eq_zero_iff.mp (by omega)
    subst hnil
    rw [overwrite_nil] at hfile ⊢
    refine ⟨rfl, ⟨hfile, ?_, ?_, ?_, hover.chunk⟩, hpos.trans h.pos, h.le,
      hsame.readable.trans h.readable, hsame.writable.trans h.writable, ?_, ?_, h.saved_le⟩
    · simpa [hdev, h.pos] using hoff'
    · exact hover.device_le
    · exact hover.buffer
    · intro hr
      simp only [hcontent, h.unreadable hr]
    · simp only [hsame.started, hsame.transactionPos]
      exact h.saved

theorem seek_holds (h : Holds s c) (pos : Int) :
    (s.seek pos).1 = (c.seek pos).1 ∧ Holds (s.seek pos).2 (c.seek pos).2 := by
  rw [Cursor.seek]
  split
  · rename_i hpos
    have hover := h.onFile
    rw [← h.pos] at hover
    obtain ⟨s', hs', hp, hsame, hover', hnil⟩ :=
      seek_within hover (show pos.toNat ≤ c.file.length by omega)
    rw [Int.toNat_of_nonneg hpos.1] at hs'
    rw [hs']
    exact ⟨rfl, h.move hsame hover' hp (by omega) fun hr => hnil (h.unreadable hr)⟩
  · rename_i hpos
    rw [seek_beyond h.onFile hpos]
    exact ⟨rfl, h⟩

theorem startTransaction_holds (h : Holds s c) : Holds s.startTransaction c.startTransaction := by
  have hsaved := h.saved
  rw [startTransaction, Cursor.startTransaction, hsaved]
  cases hs : s.transactionStarted with
  | true => exact h
  | false =>
    refine ⟨⟨h.onFile.file, h.onFile.device, h.onFile.device_le, h.onFile.buffer,
      h.onFile.chunk⟩, h.pos, h.le,
      h.readable, h.writable, h.unreadable, ?_, ?_⟩
    · simp [h.pos]
    · intro p hp
      simp only [Bool.false_eq_true, if_false, Option.isSome_none, Option.some.injEq] at hp
      rw [← hp]
      exact h.le

theorem commitTransaction_holds (h : Holds s c) :
    Holds s.commitTransaction c.commitTransaction := by
  have hsaved := h.saved
  rw [commitTransaction, Cursor.commitTransaction, isSequential_eq]
  split
  · rename_i hs
    rw [if_neg hs] at hsaved
    have hc : { c with saved := none } = c := by rw [← hsaved]
    rw [hc]
    exact h
  · exact ⟨⟨h.onFile.file, h.onFile.device, h.onFile.device_le, h.onFile.buffer,
      h.onFile.chunk⟩, h.pos, h.le,
      h.readable, h.writable, h.unreadable, rfl, fun p hp => absurd hp (by simp)⟩

theorem rollbackTransaction_holds (h : Holds s c) :
    Holds s.rollbackTransaction c.rollbackTransaction := by
  have hsaved := h.saved
  rw [rollbackTransaction, Cursor.rollbackTransaction, hsaved, isSequential_eq]
  split
  · exact h
  · rename_i hs
    rw [not_not] at hs
    rw [if_pos hs] at hsaved
    simp only [hs, if_true, Bool.false_eq_true, if_false]
    have hover := h.onFile
    rw [← h.pos] at hover
    have hseek := seekBuffer_over hover s.transactionPos
    exact ⟨⟨hseek.file, hseek.device, hseek.device_le, hseek.buffer, hseek.chunk⟩, rfl,
      h.saved_le _ hsaved, h.readable, h.writable,
      fun hr => content_seekBuffer_nil (h.unreadable hr) _, rfl, fun p hp => absurd hp (by simp)⟩

/-! ## Runs -/

theorem perform_holds (h : Holds s c) (op : Op) :
    ∃ s', s.perform op = some ((c.perform op).1, s') ∧ Holds s' (c.perform op).2 := by
  cases op with
  | read n =>
    obtain ⟨s', hs', hholds⟩ := read_holds h n
    exact ⟨s', by rw [perform, hs']; rfl, hholds⟩
  | readArray n =>
    obtain ⟨s', hs', hholds⟩ := readArray_holds h n
    exact ⟨s', by rw [perform, hs']; rfl, hholds⟩
  | peek n =>
    obtain ⟨s', hs', hholds⟩ := peekBytes_holds h n
    exact ⟨s', by rw [perform, hs']; rfl, hholds⟩
  | peekArray n =>
    obtain ⟨s', hs', hholds⟩ := peekArray_holds h n
    exact ⟨s', by rw [perform, hs']; rfl, hholds⟩
  | getChar =>
    obtain ⟨s', hs', hholds⟩ := read_holds h 1
    exact ⟨s', by rw [perform, getChar, hs']; rfl, hholds⟩
  | readLine n =>
    obtain ⟨s', hs', hholds⟩ := readLine_holds h n
    exact ⟨s', by rw [perform, hs']; rfl, hholds⟩
  | readLineArray n =>
    obtain ⟨s', hs', hholds⟩ := readLineArray_holds h n
    exact ⟨s', by rw [perform, hs']; rfl, hholds⟩
  | readAll =>
    obtain ⟨s', hs', hholds⟩ := readAll_holds h
    exact ⟨s', by rw [perform, hs']; rfl, hholds⟩
  | skip n =>
    obtain ⟨s', hs', hholds⟩ := skip_holds h n
    exact ⟨s', by rw [perform, hs']; rfl, hholds⟩
  | write data =>
    obtain ⟨hreply, hholds⟩ := write_holds h data
    exact ⟨_, by rw [perform, hreply]; rfl, hholds⟩
  | seek pos =>
    obtain ⟨hreply, hholds⟩ := seek_holds h pos
    exact ⟨_, by rw [perform, hreply]; rfl, hholds⟩
  | startTransaction => exact ⟨_, rfl, startTransaction_holds h⟩
  | commitTransaction => exact ⟨_, rfl, commitTransaction_holds h⟩
  | rollbackTransaction => exact ⟨_, rfl, rollbackTransaction_holds h⟩

theorem run_holds : ∀ (ops : List Op) {s : IoDevice B D} {c : Cursor}, Holds s c →
    ∃ s', s.run ops = some ((c.run ops).1, s') ∧ Holds s' (c.run ops).2
  | [], s, c, h => ⟨s, rfl, h⟩
  | op :: ops, s, c, h => by
    obtain ⟨s₁, hs₁, h₁⟩ := perform_holds h op
    obtain ⟨s₂, hs₂, h₂⟩ := run_holds ops h₁
    refine ⟨s₂, ?_, h₂⟩
    rw [run, hs₁]
    simp only [Option.bind_eq_bind, Option.bind_some, hs₂]
    rfl

end IoDevice

end Libpdk.Io
