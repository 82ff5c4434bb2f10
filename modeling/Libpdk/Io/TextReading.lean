import Libpdk.Io.RandomAccessRead
import Libpdk.Ds.RingBufferPush

/-!
# Reading a file as text

With Text, reads deliver the file without its carriage returns, however they are cut
(`read_spec`). `readLine` takes the first part of a line from the buffer as it is there, and then
removes one carriage return at most: `Clean` says where that is right, `readLine_iff` that it is
wrong elsewhere, and `text_reading` what that means for a run.
-/
namespace Libpdk.Io

open PushQueue

instance {B D : Type} [PushQueue B] [ByteFileDevice D] : FileDevice B D where
  file := ByteFileDevice.file
  Ready d pos := ByteFileDevice.offset d = pos
  readData_eq s n _ h := by
    refine ⟨(RawDevice.readData s.device n).2, ?_, ByteFileDevice.file_readData _ _, ?_⟩
    · show ((RawDevice.readData s.device n).1, _) = _
      rw [ByteFileDevice.readData_fst, h]
    · rw [ByteFileDevice.offset_readData, h]
  readData_zero s := by
    refine ⟨(RawDevice.readData s.device 0).2, rfl, ByteFileDevice.file_readData _ _, ?_⟩
    intro pos h
    rw [ByteFileDevice.offset_readData, h, List.take_zero]
    rfl
  seek_within s pos hle := by
    obtain ⟨device, hseek, hfile, hoffset⟩ := ByteFileDevice.seek_within s.device pos hle
    refine ⟨device, ?_, hfile, hoffset⟩
    have hpos : ¬ (pos : Int) < 0 := by omega
    show (if (pos : Int) < 0 then _ else _) = _
    rw [if_neg hpos, Int.toNat_natCast, hseek]
    simp only [RandomAccess.baseSeek, if_neg hpos, Int.toNat_natCast]
  getSize_eq s := ByteFileDevice.getSize_eq s.device

namespace RandomAccess

open FileDevice
open ByteQueue (upTo upTo_cons upTo_nil upTo_isPrefix)

/-! ## Lines -/

theorem upTo_of_ended {c : UInt8} : ∀ {a : Bytes} {m : Nat}, c ∉ a → a.length < m → ∀ t : Bytes,
    upTo c m (a ++ c :: t) = a ++ [c]
  | [], m + 1, _, _, t => by simp [upTo_cons]
  | x :: a, m + 1, hc, hlen, t => by
    rw [List.mem_cons, not_or] at hc
    rw [List.length_cons] at hlen
    rw [List.cons_append, upTo_cons, if_neg (Ne.symm hc.1), upTo_of_ended hc.2 (by omega) t]
    rfl

theorem upTo_of_open {c : UInt8} : ∀ {a : Bytes} {m : Nat}, c ∉ a → a.length ≤ m → ∀ t : Bytes,
    upTo c m (a ++ t) = a ++ upTo c (m - a.length) t
  | [], m, _, _, t => by simp
  | x :: a, m + 1, hc, hlen, t => by
    rw [List.mem_cons, not_or] at hc
    rw [List.length_cons] at hlen ⊢
    rw [List.cons_append, upTo_cons, if_neg (Ne.symm hc.1), upTo_of_open hc.2 (by omega) t,
      Nat.add_sub_add_right]
    rfl

/-- A line has its end at most at its end. -/
theorem upTo_shape {c : UInt8} : ∀ (m : Nat) (l : Bytes), c ∉ upTo c m l ∨
    ∃ a, upTo c m l = a ++ [c] ∧ c ∉ a
  | 0, l => by simp
  | m + 1, [] => by simp
  | m + 1, x :: l => by
    rw [upTo_cons]
    by_cases hx : x = c
    · rw [if_pos hx]
      exact .inr ⟨[], by simp [hx], by simp⟩
    · rw [if_neg hx]
      rcases upTo_shape (c := c) m l with h | ⟨a, ha, hc⟩
      · exact .inl (by simp [h, Ne.symm hx])
      · exact .inr ⟨x :: a, by rw [ha]; rfl, by simp [hc, Ne.symm hx]⟩

theorem endLine_of_notMem {l : Bytes} (h : carriageReturn ∉ l) : endLine true l = l := by
  refine if_neg fun hend => h (List.mem_of_mem_drop (i := l.length - 2) ?_)
  rw [hend.2]
  exact List.mem_cons_self

theorem endLine_append (a : Bytes) :
    endLine true (a ++ [carriageReturn, newline]) = a ++ [newline] := by
  have hlen : (a ++ [carriageReturn, newline]).length - 2 = a.length := by
    simp
  rw [endLine, hlen, List.drop_left, List.take_left, if_pos ⟨rfl, rfl⟩]

/-- A carriage return elsewhere stays. -/
theorem mem_endLine {l : Bytes} (hmem : carriageReturn ∈ l)
    (h : ¬ ∃ a, l = a ++ [carriageReturn, newline] ∧ carriageReturn ∉ a) :
    carriageReturn ∈ endLine true l := by
  unfold endLine
  split
  · rename_i hend
    refine List.mem_append_left _ ?_
    by_contra hno
    refine h ⟨l.take (l.length - 2), ?_, hno⟩
    rw [← hend.2, List.take_append_drop]
  · exact hmem

theorem notMem_strip (l : Bytes) : carriageReturn ∉ strip true l := by
  simp [strip]

theorem strip_of_notMem {l : Bytes} (h : carriageReturn ∉ l) : strip true l = l := by
  refine List.filter_eq_self.mpr fun c hc => ?_
  simp only [ne_eq, decide_eq_true_eq]
  exact fun he => h (he ▸ hc)

variable {B D : Type} [PushQueue B] [FileDevice B D] {s : RandomAccess B D}

theorem readLineLoop_spec : ∀ (m : Nat) {s : RandomAccess B D} (data : Bytes), Placed s →
    s.readable = true → ∃ s', s.readLineLoop data m =
        some (data ++ upTo newline m (strip s.text (rest s)), s') ∧ Moved s s' ∧
      strip s.text (rest s') = (strip s.text (rest s)).drop
        (upTo newline m (strip s.text (rest s))).length
  | 0, s, data, h, _ => ⟨s, by simp [readLineLoop], Moved.refl h, rfl⟩
  | m + 1, s, data, h, hr => by
    obtain ⟨s', hread, hmoved, hrest⟩ := read_spec h hr 1
    have hstrip : strip s.text (rest s') = (strip s.text (rest s)).drop 1 := by
      rw [hrest, strip_left]
    rw [readLineLoop, show ((1 : Int)) = ((1 : Nat) : Int) from rfl, hread, Option.bind_some]
    rcases hc : strip s.text (rest s) with - | ⟨c, l⟩
    · rw [hc] at hstrip
      refine ⟨s', ?_, hmoved, ?_⟩
      · simp
      · rw [hstrip]
        simp
    · rw [hc, List.drop_succ_cons, List.drop_zero] at hstrip
      simp only [List.take_succ_cons, List.take_zero, upTo_cons]
      by_cases hnl : c = newline
      · rw [if_pos hnl, if_pos hnl]
        exact ⟨s', rfl, hmoved, hstrip⟩
      · rw [if_neg hnl, if_neg hnl]
        obtain ⟨s'', hloop, hmoved', hrest'⟩ := readLineLoop_spec m (data ++ [c]) hmoved.placed
          (hmoved.same.readable.trans hr)
        rw [hmoved.same.text, hstrip] at hloop hrest'
        refine ⟨s'', ?_, hmoved.trans hmoved', ?_⟩
        · rw [hloop, List.append_assoc]
          rfl
        · rw [hrest', List.length_cons, List.drop_succ_cons]

/-- The part of the line that is in the buffer is taken as it is there. -/
theorem readLineBuffer_spec (h : Placed s) (m : Nat) : ∃ s',
    s.readLineBuffer m = (upTo newline m (content s.buffer), s') ∧ Moved s s' ∧
      rest s = upTo newline m (content s.buffer) ++ rest s' := by
  unfold readLineBuffer
  split
  · rename_i hempty
    rw [isEmpty_eq_true] at hempty
    exact ⟨s, by rw [hempty, upTo_nil], Moved.refl h, by rw [hempty, upTo_nil]; rfl⟩
  · rename_i hempty
    rw [isEmpty_eq_true] at hempty
    have hdata := readLine_fst s.buffer newline m
    have hcontent := content_readLine s.buffer newline m
    rw [hdata] at hcontent
    generalize hraw : upTo newline m (content s.buffer) = raw at hdata hcontent
    obtain ⟨t, ht⟩ := hraw ▸ upTo_isPrefix newline m (content s.buffer)
    generalize hb : (PushQueue.readLine s.buffer newline m).2 = b at hcontent
    have hpair : PushQueue.readLine s.buffer newline m = (raw, b) := Prod.ext hdata hb
    rw [← ht, List.drop_left] at hcontent
    have hle := h.le
    rw [← ht, List.length_append] at hle
    rw [hpair]
    simp only
    have hplaced : Placed { s with buffer := b, pos := s.pos + raw.length } := by
      refine ⟨?_, h.devicePos, h.ready, h.chunk⟩
      simp only [hcontent]
      omega
    have hrest : rest s = raw ++ rest { s with buffer := b, pos := s.pos + raw.length } := by
      rw [rest, rest]
      simp only [hcontent]
      rw [← ht, List.length_append, ← Nat.add_assoc, List.append_assoc]
    have hmoved : Moved s { s with buffer := b, pos := s.pos + raw.length } := by
      refine ⟨⟨rfl, rfl, rfl, rfl, rfl, rfl⟩, hplaced, ?_, fun _ hnil => absurd hnil hempty⟩
      rw [hrest, List.length_append]
      simp only
      omega
    obtain ⟨device, hs, hfile, hready⟩ := notify_spec { s with buffer := b }
    cases hnil : isEmpty b with
    | false => exact ⟨_, rfl, hmoved, hrest⟩
    | true =>
      rw [notifyIf, if_pos rfl, hs]
      obtain ⟨hmoved', hrest'⟩ := hmoved.device hfile (hready _ h.ready)
      refine ⟨_, rfl, hmoved', hrest.trans ?_⟩
      rw [← hrest']

/-- What `readLine` returns, from the part of the line in the buffer and the part behind it. -/
def lineReply (raw line : Bytes) : Option Bytes :=
  if raw.getLast? = some newline then some (endLine true raw)
  else if line = [] then if raw = [] then none else some raw
  else some (endLine true (raw ++ line))

/-- The line of a text: -1 where there is none. -/
def textLine (m : Nat) (text : Bytes) : Option Bytes :=
  if upTo newline m text = [] then none else some (upTo newline m text)

/-- The bytes `raw` of a line that are in the buffer have no carriage return, or one that stands
directly before the newline; `behind` are the bytes that follow. -/
def Clean (m : Nat) (raw behind : Bytes) : Prop :=
  carriageReturn ∉ raw ∨ ∃ a, carriageReturn ∉ a ∧
    (raw = a ++ [carriageReturn, newline] ∨
      raw = a ++ [carriageReturn] ∧ raw.length < m ∧ (strip true behind).head? = some newline)

theorem readLine_spec (h : Placed s) (hr : s.readable = true) (htext : s.text = true) {n : Int}
    (hn : 2 ≤ n) {m : Nat} (hm : m = n.toNat - 1) {raw : Bytes}
    (hraw : raw = upTo newline m (content s.buffer)) : ∃ s' behind, rest s = raw ++ behind ∧
      s.readLine n =
        some (lineReply raw (upTo newline (m - raw.length) (strip true behind)), s') ∧
      Moved s s' ∧ strip true (rest s') = if raw.getLast? = some newline then strip true behind
        else (strip true behind).drop
          (upTo newline (m - raw.length) (strip true behind)).length := by
  obtain ⟨s₁, hbuffer, hmoved, hrest⟩ := readLineBuffer_spec h m
  rw [← hraw] at hbuffer hrest
  have hlow : ¬ n < 2 := by omega
  unfold readLine lineReply
  rw [if_neg hlow, ← hm]
  simp only [hbuffer]
  by_cases hend : raw.getLast? = some newline
  · simp only [if_pos hend, hmoved.same.text, htext]
    exact ⟨s₁, rest s₁, hrest, rfl, hmoved, rfl⟩
  · have hplaced := hmoved.placed
    have hle := hplaced.le
    obtain ⟨s₂, hposition, hsame, hpos, hdev, hready, hcontent, -⟩ :=
      position_spec (s := s₁) (by omega) hplaced.ready
    have hrest₂ : rest s₂ = rest s₁ := by
      rw [rest, rest, hcontent, hpos, hsame.file]
    have hmoved₂ : Moved s s₂ := by
      refine ⟨hmoved.same.trans hsame, ⟨?_, ?_, hready, ?_⟩, ?_, ?_⟩
      · rw [hcontent, hpos, hsame.file]
        exact hle
      · rw [hdev, hsame.file]
        omega
      · rw [hsame.chunk]
        exact hplaced.chunk
      · rw [hpos, hrest₂]
        exact hmoved.pos
      · rw [hcontent]
        exact hmoved.empty
    have htext₂ := hmoved₂.same.text.trans htext
    obtain ⟨s₃, hloop, hmoved₃, hrest₃⟩ := readLineLoop_spec (m - raw.length) [] hmoved₂.placed
      (hmoved₂.same.readable.trans hr)
    rw [htext₂, hrest₂] at hloop hrest₃
    have htext₃ := hmoved₃.same.text.trans htext₂
    simp only [if_neg hend, hposition, Option.bind_some, readLineData, hloop, Option.map_some,
      List.nil_append]
    refine ⟨s₃, rest s₁, hrest, ?_, hmoved₂.trans hmoved₃, hrest₃⟩
    by_cases hnil : upTo newline (m - raw.length) (strip true (rest s₁)) = []
    · simp only [if_pos hnil]
    · simp only [if_neg hnil, htext₃]

/-! ## Where a line is right -/

variable {m : Nat} {raw behind : Bytes}

theorem getLast?_newline (a : Bytes) : (a ++ [newline]).getLast? = some newline := by
  simp

theorem getLast?_of_notMem {l : Bytes} (h : newline ∉ l) : l.getLast? ≠ some newline :=
  fun he => h (List.mem_of_getLast? he)

/-- A line that the buffer has whole. -/
theorem lineReply_whole {a : Bytes} (hnl : newline ∉ a) (hlen : a.length < m)
    (hline : endLine true raw = a ++ [newline]) (hend : raw.getLast? = some newline)
    (hstrip : strip true raw = a ++ [newline]) (line : Bytes) :
    lineReply raw line = textLine m (strip true (raw ++ behind)) ∧
      strip true behind = (strip true (raw ++ behind)).drop
        ((textLine m (strip true (raw ++ behind))).getD []).length := by
  have htext : strip true (raw ++ behind) = a ++ newline :: strip true behind := by
    rw [strip_append, hstrip, List.append_assoc]
    rfl
  have hup := upTo_of_ended hnl hlen (strip true behind)
  have hne : a ++ [newline] ≠ [] := by simp
  rw [lineReply, if_pos hend, textLine, htext, hup, if_neg hne, hline, Option.getD_some]
  refine ⟨rfl, ?_⟩
  rw [show a ++ newline :: strip true behind = (a ++ [newline]) ++ strip true behind by simp,
    List.drop_left]

/-- What is left of the text where the line that was read ends. -/
theorem lineReply_clean (hshape : newline ∉ raw ∨ ∃ a, raw = a ++ [newline] ∧ newline ∉ a)
    (hlen : raw.length ≤ m) (hclean : Clean m raw behind) :
    lineReply raw (upTo newline (m - raw.length) (strip true behind)) =
        textLine m (strip true (raw ++ behind)) ∧
      (if raw.getLast? = some newline then strip true behind
        else (strip true behind).drop
          (upTo newline (m - raw.length) (strip true behind)).length) =
        (strip true (raw ++ behind)).drop
          ((textLine m (strip true (raw ++ behind))).getD []).length := by
  rcases hclean with hcr | ⟨a, hcr, hraw | ⟨hraw, hless, hhead⟩⟩
  · have hstrip := strip_of_notMem hcr
    rcases hshape with hnl | ⟨a, hraw, hnl⟩
    · -- the line goes on behind the buffer
      have hend := getLast?_of_notMem hnl
      have hup := upTo_of_open hnl hlen (strip true behind)
      have hnone : carriageReturn ∉ upTo newline (m - raw.length) (strip true behind) :=
        fun hmem => notMem_strip behind ((upTo_isPrefix _ _ _).subset hmem)
      have hdrop : (strip true behind).drop
          (upTo newline (m - raw.length) (strip true behind)).length = (raw ++ strip true behind).drop
            (raw ++ upTo newline (m - raw.length) (strip true behind)).length := by
        rw [List.length_append, ← List.drop_drop, List.drop_left]
      rw [if_neg hend, lineReply, if_neg hend, strip_append, hstrip, textLine, hup]
      generalize upTo newline (m - raw.length) (strip true behind) = line at hnone hdrop
      by_cases hline : line = []
      · rw [if_pos hline, hline, List.append_nil]
        by_cases hnil : raw = []
        · rw [if_pos hnil, hnil]
          exact ⟨rfl, by simp⟩
        · rw [if_neg hnil, Option.getD_some, List.drop_left]
          exact ⟨rfl, by simp⟩
      · have hne : raw ++ line ≠ [] := by simp [hline]
        rw [if_neg hline, if_neg hne, Option.getD_some, endLine_of_notMem (by
          rw [List.mem_append, not_or]
          exact ⟨hcr, hnone⟩)]
        exact ⟨rfl, hdrop⟩
    · have hend : raw.getLast? = some newline := hraw ▸ getLast?_newline a
      rw [hraw, List.length_append, List.length_singleton] at hlen
      rw [if_pos hend]
      exact lineReply_whole hnl (by omega) (by rw [endLine_of_notMem hcr, hraw]) hend
        (by rw [hstrip, hraw]) _
  · have hcr' : carriageReturn ∉ a ++ [newline] := by
      simp only [List.mem_append, hcr, false_or, List.mem_singleton]
      decide
    have hend : raw.getLast? = some newline := by
      rw [hraw]
      simp
    have hnl : newline ∉ a := by
      rcases hshape with hnl | ⟨a', hraw', hnl⟩
      · exact absurd hend (getLast?_of_notMem hnl)
      · intro hmem
        have heq := hraw.symm.trans hraw'
        rw [show a ++ [carriageReturn, newline] = (a ++ [carriageReturn]) ++ [newline] by simp] at heq
        obtain ⟨rfl, -⟩ := List.append_inj' heq rfl
        exact hnl (List.mem_append_left _ hmem)
    rw [hraw, List.length_append] at hlen
    simp only [List.length_cons, List.length_nil] at hlen
    rw [if_pos hend]
    refine lineReply_whole hnl (by omega) (by rw [hraw, endLine_append]) hend ?_ _
    rw [hraw, strip_append, strip_of_notMem hcr]
    rfl
  · -- the newline is the next byte that is no carriage return
    have hnl : newline ∉ raw := by
      rcases hshape with hnl | ⟨a', hraw', -⟩
      · exact hnl
      · have heq := (List.append_inj' (hraw.symm.trans hraw') rfl).2
        exact absurd heq (by decide)
    obtain ⟨t, ht⟩ : ∃ t, strip true behind = newline :: t := by
      cases hb : strip true behind with
      | nil =>
        rw [hb] at hhead
        simp at hhead
      | cons c t =>
        rw [hb, List.head?_cons, Option.some.injEq] at hhead
        exact ⟨t, by rw [hhead]⟩
    have hend := getLast?_of_notMem hnl
    have hline : upTo newline (m - raw.length) (newline :: t) = [newline] := by
      obtain ⟨k, hk⟩ : ∃ k, m - raw.length = k + 1 := ⟨m - raw.length - 1, by omega⟩
      rw [hk, upTo_cons, if_pos rfl]
    have hnl' : newline ∉ a := fun hmem => hnl (hraw ▸ List.mem_append_left _ hmem)
    have htext : strip true (raw ++ behind) = a ++ newline :: t := by
      rw [strip_append, hraw, strip_append, strip_of_notMem hcr, ht,
        show strip true [carriageReturn] = [] from rfl, List.append_nil]
    have hne : a ++ [newline] ≠ [] := by simp
    rw [hraw, List.length_append, List.length_singleton] at hless
    have hlt : a.length < m := by omega
    rw [if_neg hend, ht, hline, lineReply, if_neg hend, if_neg (by simp), htext, textLine,
      upTo_of_ended hnl' hlt, if_neg hne, hraw, List.append_assoc]
    refine ⟨congrArg some (endLine_append a), ?_⟩
    rw [Option.getD_some, show a ++ newline :: t = (a ++ [newline]) ++ t by simp, List.drop_left]
    rfl

/-- Elsewhere the line that is returned has a carriage return. -/
theorem lineReply_unclean (hlen : raw.length ≤ m) (hclean : ¬ Clean m raw behind) : ∃ line,
    lineReply raw (upTo newline (m - raw.length) (strip true behind)) = some line ∧
      carriageReturn ∈ line := by
  unfold Clean at hclean
  rw [not_or, not_not] at hclean
  obtain ⟨hcr, hclean⟩ := hclean
  have hne : raw ≠ [] := List.ne_nil_of_mem hcr
  unfold lineReply
  by_cases hend : raw.getLast? = some newline
  · rw [if_pos hend]
    exact ⟨_, rfl, mem_endLine hcr fun ⟨a, hraw, hnone⟩ => hclean ⟨a, hnone, .inl hraw⟩⟩
  · rw [if_neg hend]
    by_cases hline : upTo newline (m - raw.length) (strip true behind) = []
    · rw [if_pos hline, if_neg hne]
      exact ⟨raw, rfl, hcr⟩
    · rw [if_neg hline]
      refine ⟨_, rfl, mem_endLine (List.mem_append_left _ hcr) fun ⟨a, hraw, hnone⟩ => ?_⟩
      -- the carriage return is the last byte of the buffer's part, and the newline follows
      have hsub := upTo_isPrefix newline (m - raw.length) (strip true behind)
      have hroom : m - raw.length ≠ 0 := fun hz => hline (by rw [hz, ByteQueue.upTo_zero])
      generalize upTo newline (m - raw.length) (strip true behind) = line at hraw hline hsub
      have hnone' : carriageReturn ∉ line := fun hmem => notMem_strip behind (hsub.subset hmem)
      rcases List.append_eq_append_iff.mp hraw with ⟨x, ha, -⟩ | ⟨x, hx, hend'⟩
      · exact hnone (ha ▸ List.mem_append_left x hcr)
      · rcases x with - | ⟨c, - | ⟨c', x⟩⟩
        · rw [List.append_nil] at hx
          exact hnone (hx ▸ hcr)
        · rw [List.cons_append, List.nil_append, List.cons.injEq] at hend'
          obtain ⟨rfl, rfl⟩ := hend'
          obtain ⟨t, ht⟩ := hsub
          refine hclean ⟨a, hnone, .inr ⟨hx, by omega, ?_⟩⟩
          rw [← ht]
          rfl
        · have hlen' := congrArg List.length hend'
          simp only [List.length_cons, List.length_nil, List.length_append] at hlen'
          exact hline (List.length_eq_zero_iff.mp (by omega))

/-! ## Runs -/

inductive TextCall
  | read (maxLength : Int)
  | readLine (maxLength : Int)

namespace TextCall

def perform (s : RandomAccess B D) : TextCall → Option (Option Bytes × RandomAccess B D)
  | .read n => s.read n
  | .readLine n => s.readLine n

/-- The call on a text that has no carriage returns: what it returns, and what is left. -/
def onText (text : Bytes) : TextCall → Option Bytes × Bytes
  | .read n => if n < 0 then (none, text) else (some (text.take n.toNat), text.drop n.toNat)
  | .readLine n =>
    if n < 2 then (none, text)
    else (textLine (n.toNat - 1) text, text.drop ((textLine (n.toNat - 1) text).getD []).length)

/-- A line is read where the part of it that is in the buffer is `Clean`. -/
def Right (s : RandomAccess B D) : TextCall → Prop
  | .read _ => True
  | .readLine n =>
    let raw := upTo newline (n.toNat - 1) (content s.buffer)
    Clean (n.toNat - 1) raw ((rest s).drop raw.length)

end TextCall

def runText (s : RandomAccess B D) : List TextCall → Option (List (Option Bytes) × RandomAccess B D)
  | [] => some ([], s)
  | call :: calls => do
    let (reply, s) ← call.perform s
    let (replies, s) ← runText s calls
    some (reply :: replies, s)

def repliesOf (text : Bytes) : List TextCall → List (Option Bytes)
  | [] => []
  | call :: calls => (call.onText text).1 :: repliesOf (call.onText text).2 calls

/-- Each call is right where it is made. -/
def Meets (s : RandomAccess B D) : List TextCall → Prop
  | [] => True
  | call :: calls => call.Right s ∧ ∀ reply s', call.perform s = some (reply, s') → Meets s' calls

/-- A call goes on in the file; it is the call on the text exactly where it is right. -/
theorem perform_spec (h : Placed s) (hr : s.readable = true) (htext : s.text = true)
    (call : TextCall) : ∃ reply s', call.perform s = some (reply, s') ∧ Moved s s' ∧
      (call.Right s → strip true (rest s') = (call.onText (strip true (rest s))).2) ∧
      (reply = (call.onText (strip true (rest s))).1 ↔ call.Right s) := by
  cases call with
  | read n =>
    have hright : TextCall.Right s (.read n) := trivial
    by_cases hn : n < 0
    · have hread : s.read n = some (none, s) := by
        rw [read, if_neg (by omega), readChecked, if_pos (.inl hn)]
      simp only [TextCall.onText, if_pos hn]
      exact ⟨none, s, hread, Moved.refl h, fun _ => rfl, by simp [hright]⟩
    · obtain ⟨s', hread, hmoved, hrest⟩ := read_spec h hr n.toNat
      rw [htext] at hread hrest
      rw [show ((n.toNat : Nat) : Int) = n by omega] at hread
      simp only [TextCall.onText, if_neg hn]
      refine ⟨_, s', hread, hmoved, fun _ => ?_, by simp [hright]⟩
      rw [hrest, strip_left]
  | readLine n =>
    by_cases hn : n < 2
    · have hread : s.readLine n = some (none, s) := by
        rw [readLine, if_pos hn]
      have hright : TextCall.Right s (.readLine n) := by
        have hzero : n.toNat - 1 = 0 := by omega
        simp only [TextCall.Right, hzero]
        exact .inl (by simp)
      simp only [TextCall.onText, if_pos hn]
      exact ⟨none, s, hread, Moved.refl h, fun _ => rfl, by simp [hright]⟩
    · simp only [TextCall.onText, if_neg hn, TextCall.Right]
      generalize hm : n.toNat - 1 = m
      generalize hraw : upTo newline m (content s.buffer) = raw
      obtain ⟨s', behind, hrest, hread, hmoved, hleft⟩ :=
        readLine_spec h hr htext (n := n) (by omega) hm.symm hraw.symm
      have hlen : raw.length ≤ m := hraw ▸ ByteQueue.upTo_length_le newline m _
      have hshape := hraw ▸ upTo_shape (c := newline) m (content s.buffer)
      rw [hrest, List.drop_left]
      refine ⟨_, s', hread, hmoved, fun hclean => ?_, ?_, ?_⟩
      · exact hleft.trans (lineReply_clean hshape hlen hclean).2
      · intro hsame
        by_contra hunclean
        obtain ⟨line, hline, hcr⟩ := lineReply_unclean hlen hunclean
        rw [hline, textLine] at hsame
        split at hsame
        · simp at hsame
        · rw [Option.some.injEq] at hsame
          rw [hsame] at hcr
          exact notMem_strip _ ((upTo_isPrefix _ _ _).subset hcr)
      · exact fun hclean => (lineReply_clean hshape hlen hclean).1

/-- Every run ends, and its replies are those of the text exactly where each call is right. -/
theorem runText_spec : ∀ (calls : List TextCall) {s : RandomAccess B D}, Placed s →
    s.readable = true → s.text = true → ∃ replies s', runText s calls = some (replies, s') ∧
      Moved s s' ∧ (replies = repliesOf (strip true (rest s)) calls ↔ Meets s calls)
  | [], s, h, _, _ => ⟨[], s, rfl, Moved.refl h, by simp [repliesOf, Meets]⟩
  | call :: calls, s, h, hr, htext => by
    obtain ⟨reply, s₁, hcall, hmoved, hleft, hreply⟩ := perform_spec h hr htext call
    obtain ⟨replies, s₂, hrun, hmoved', hiff⟩ := runText_spec calls hmoved.placed
      (hmoved.same.readable.trans hr) (hmoved.same.text.trans htext)
    have hnext : (∀ reply' s', call.perform s = some (reply', s') → Meets s' calls) ↔
        Meets s₁ calls := by
      rw [hcall]
      constructor
      · intro hall
        exact hall reply s₁ rfl
      · intro hmeets reply' s' heq
        rw [Option.some.injEq, Prod.mk.injEq] at heq
        rw [← heq.2]
        exact hmeets
    refine ⟨reply :: replies, s₂, ?_, hmoved.trans hmoved', ?_⟩
    · rw [runText, hcall]
      simp only [Option.bind_eq_bind, Option.bind_some, hrun]
    · rw [repliesOf, List.cons.injEq, hreply, Meets, hnext, ← hiff]
      constructor
      · rintro ⟨hright, hsame⟩
        rw [hleft hright]
        exact ⟨hright, hsame⟩
      · rintro ⟨hright, hsame⟩
        rw [hleft hright] at hsame
        exact ⟨hright, hsame⟩

theorem meets_unbuffered : ∀ (calls : List TextCall) {s : RandomAccess B D}, Placed s →
    s.readable = true → s.text = true → s.unbuffered = true → content s.buffer = [] → Meets s calls
  | [], _, _, _, _, _, _ => trivial
  | call :: calls, s, h, hr, htext, hun, hnil => by
    obtain ⟨reply, s₁, hcall, hmoved, -, -⟩ := perform_spec h hr htext call
    refine ⟨?_, fun reply' s' heq => ?_⟩
    · cases call with
      | read n => trivial
      | readLine n =>
        simp only [TextCall.Right, hnil, upTo_nil]
        exact .inl (by simp)
    · rw [hcall, Option.some.injEq, Prod.mk.injEq] at heq
      rw [← heq.2]
      exact meets_unbuffered calls hmoved.placed (hmoved.same.readable.trans hr)
        (hmoved.same.text.trans htext) (hmoved.same.unbuffered.trans hun) (hmoved.empty hun hnil)

theorem meets_reads : ∀ (calls : List TextCall) (s : RandomAccess B D),
    (∀ n, TextCall.readLine n ∉ calls) → Meets s calls
  | [], _, _ => trivial
  | .read _ :: calls, _, h =>
    ⟨trivial, fun _ s' _ => meets_reads calls s' fun n hmem => h n (List.mem_cons_of_mem _ hmem)⟩
  | .readLine n :: _, _, h => absurd List.mem_cons_self (h n)

/-- A file that is opened for reading as text: the replies of a run are those of the file without
its carriage returns exactly where each line is read where it is right to, as it always is without
a buffer; reads alone always are. -/
theorem text_reading {B D : Type} [PushQueue B] [ByteFileDevice D] (device : D)
    (hopen : ByteFileDevice.offset device = 0) (writable unbuffered : Bool) (chunk : Nat)
    (hchunk : chunk < maxByteArraySize) (calls : List TextCall) :
    (∃ replies s', runText (opened true writable unbuffered true chunk device : RandomAccess B D)
        calls = some (replies, s') ∧
      (replies = repliesOf (strip true (ByteFileDevice.file device)) calls ↔
        Meets (opened true writable unbuffered true chunk device : RandomAccess B D) calls)) ∧
    (unbuffered = true →
      Meets (opened true writable unbuffered true chunk device : RandomAccess B D) calls) ∧
    ((∀ n, TextCall.readLine n ∉ calls) →
      Meets (opened true writable unbuffered true chunk device : RandomAccess B D) calls) := by
  have hnil : content (opened true writable unbuffered true chunk device :
      RandomAccess B D).buffer = [] := content_new chunk
  have hplaced : Placed (opened true writable unbuffered true chunk device :
      RandomAccess B D) := by
    refine ⟨?_, Nat.zero_le _, hopen, hchunk⟩
    rw [hnil]
    exact Nat.zero_le _
  have hrest : rest (opened true writable unbuffered true chunk device : RandomAccess B D) =
      ByteFileDevice.file device := by
    rw [rest, hnil]
    rfl
  obtain ⟨replies, s', hrun, -, hiff⟩ := runText_spec calls hplaced rfl rfl
  rw [hrest] at hiff
  exact ⟨⟨replies, s', hrun, hiff⟩, fun hun => meets_unbuffered calls hplaced rfl rfl hun hnil,
    fun hreads => meets_reads calls _ hreads⟩

/-- A file of four bytes, read in two parts. -/
theorem text_reading_two :
    (∃ replies s', runText (opened true false false true 16 ⟨[97, 13, 10, 98], 0⟩ :
        RandomAccess Ds.RingBuffer.Pushable MemoryFile) [.read 1, .read 2] = some (replies, s') ∧
      (replies = repliesOf (strip true
          (ByteFileDevice.file (⟨[97, 13, 10, 98], 0⟩ : MemoryFile))) [.read 1, .read 2] ↔
        Meets (opened true false false true 16 ⟨[97, 13, 10, 98], 0⟩ :
          RandomAccess Ds.RingBuffer.Pushable MemoryFile) [.read 1, .read 2])) ∧
    (false = true → Meets (opened true false false true 16 ⟨[97, 13, 10, 98], 0⟩ :
      RandomAccess Ds.RingBuffer.Pushable MemoryFile) [.read 1, .read 2]) ∧
    ((∀ n, TextCall.readLine n ∉ [.read 1, .read 2]) →
      Meets (opened true false false true 16 ⟨[97, 13, 10, 98], 0⟩ :
        RandomAccess Ds.RingBuffer.Pushable MemoryFile) [.read 1, .read 2]) :=
  text_reading (⟨[97, 13, 10, 98], 0⟩ : MemoryFile) rfl false false 16 (by decide)
    [.read 1, .read 2]

/-- Two equal lines, one read before the buffer is filled and one from the buffer. -/
theorem text_reading_marred :
    (∃ s, runText (opened true false false true 16 ⟨[97, 13, 98, 10, 97, 13, 98, 10], 0⟩ :
        RandomAccess Ds.RingBuffer.Pushable MemoryFile) [.readLine 10, .readLine 10] =
      some ([some [97, 98, 10], some [97, 13, 98, 10]], s)) ∧
    ∃ s, runText (opened true false true true 16 ⟨[97, 13, 98, 10, 97, 13, 98, 10], 0⟩ :
        RandomAccess Ds.RingBuffer.Pushable MemoryFile) [.readLine 10, .readLine 10] =
      some ([some [97, 98, 10], some [97, 98, 10]], s) :=
  ⟨⟨_, rfl⟩, ⟨_, rfl⟩⟩

end RandomAccess

end Libpdk.Io
