import Libpdk.Core.ByteQueue
import Libpdk.Ds.RingBufferFront
import Libpdk.Ds.RingBufferQueue

/-!
# Bytes pushed back into a ring buffer

`ungetChar` in a buffer without blocks makes a first block and counts a last one that does not
exist (`closed` supplies it). Such a buffer reads like any other, it only cannot take more bytes
at the back until it is empty again.
-/
namespace Libpdk.Ds.RingBuffer

/-- mirrors ds/internal/RingBufferPrivate.h:96-106 -/
def ungetChar (s : RingBuffer) (c : UInt8) : Option RingBuffer :=
  if s.head > 0 then
    some ({ s with head := s.head - 1, bufferSize := s.bufferSize + 1 }.writeFront [c])
  else s.prepend [c]

/-- The buffer with the last block that is counted. -/
def closed (s : RingBuffer) : RingBuffer :=
  if s.tailBuffer = s.buffers.length then { s with buffers := s.buffers ++ [.empty] } else s

/-- Every block but the last has bytes. -/
def Leading (s : RingBuffer) : Prop := ∀ b ∈ s.buffers.dropLast, b.bytes ≠ []

structure Held (s : RingBuffer) : Prop where
  basic : s.basicBlockSize ≠ 0
  shaped : Shaped false s.closed
  leading : Leading s.closed

variable {full : Bool} {s : RingBuffer}

theorem closed_of_ne (h : s.tailBuffer ≠ s.buffers.length) : s.closed = s := if_neg h

theorem closed_of_eq (h : s.tailBuffer = s.buffers.length) :
    s.closed = { s with buffers := s.buffers ++ [.empty] } := if_pos h

theorem Held.closed_ne_nil (h : Held s) : s.closed.buffers ≠ [] := by
  intro hnil
  have hlast := h.shaped.tailBuffer
  unfold closed at hnil hlast
  split at hnil
  · simp at hnil
  · rename_i hne
    rw [if_neg hne, hnil] at hlast
    rw [hnil] at hne
    exact hne hlast

/-- A buffer as it should be. -/
theorem Shaped.held (h : Shaped false s) (hbasic : s.basicBlockSize ≠ 0) (hlead : Leading s) :
    Held s ∧ s.closed.content = s.content ∧ (s.tailBuffer = s.buffers.length → s.buffers = []) := by
  by_cases hb : s.buffers = []
  · have hlast := h.tailBuffer
    have htail := h.tail
    have hsize : s.bufferSize = 0 := by
      rw [h.size, content, hb]
      simp [live]
    rw [hb] at hlast htail
    have hclosed := closed_of_eq (show s.tailBuffer = s.buffers.length by rw [hb]; exact hlast)
    rw [hb, List.nil_append] at hclosed
    have hc : s.closed.content = [] := by
      rw [hclosed, content]
      simp [live, Block.empty]
    refine ⟨⟨hbasic, ⟨?_, ?_, ?_, ?_, ?_, ?_, ?_⟩, ?_⟩, ?_, fun _ => hb⟩
    · rw [hclosed]
      exact h.basic
    · rw [hclosed]
      intro b hmem
      rw [List.mem_singleton.mp hmem]
      exact ⟨by decide, Nat.zero_le _⟩
    · rw [hclosed]
      exact hlast
    · rw [hclosed]
      exact htail
    · rw [hc, hclosed]
      exact hsize
    · rw [hclosed]
      exact .inl (h.empty hsize).2.1
    · rw [hclosed]
      exact .singleton _
    · rw [hclosed]
      intro b hmem
      simp at hmem
    · rw [hc, content, hb]
      simp [live]
  · have hlast := h.tailBuffer
    have hpos := List.length_pos_iff.mpr hb
    have hne : s.tailBuffer ≠ s.buffers.length := by omega
    rw [closed_of_ne hne]
    exact ⟨⟨hbasic, by rwa [closed_of_ne hne], by rwa [closed_of_ne hne]⟩, rfl,
      fun he => absurd he hne⟩

/-- Where the last block does not exist nothing of it is in use. -/
theorem Held.tail (h : Held s) (heq : s.tailBuffer = s.buffers.length) : s.tail = 0 := by
  have htail := h.shaped.tail
  rw [closed_of_eq heq] at htail
  simpa [Block.size, Block.empty] using htail

theorem Held.content_nil (h : Held s) (hb : s.buffers = []) : s.closed.content = [] := by
  have hlast : s.tailBuffer = s.buffers.length := by
    by_contra hne
    exact h.closed_ne_nil (by rw [closed_of_ne hne, hb])
  rw [closed_of_eq hlast, content, hb]
  simp [live, Block.empty]

/-! ## Taking bytes away -/

theorem front_closed (hb : s.buffers ≠ []) : s.closed.front = s.front := by
  unfold closed
  split
  · obtain ⟨b, bs, hb⟩ := List.exists_cons_of_ne_nil hb
    simp [RingBuffer.front, hb]
  · rfl

theorem nextDataBlockSize_closed (hb : s.buffers ≠ []) :
    s.closed.nextDataBlockSize = s.nextDataBlockSize := by
  have hfront := front_closed hb
  unfold closed at hfront ⊢
  split
  · rename_i heq
    rw [if_pos heq] at hfront
    rw [nextDataBlockSize, nextDataBlockSize, hfront]
  · rfl

theorem freeLoop_closed : ∀ (rounds : Nat) {s : RingBuffer} (n : Nat),
    s.tailBuffer = s.buffers.length → Shaped false s.closed → n ≤ s.closed.content.length →
    s.buffers.length ≤ rounds →
    (freeLoop rounds s n).closed = freeLoop (rounds + 1) s.closed n ∧
      (freeLoop rounds s n).tailBuffer = (freeLoop rounds s n).buffers.length
  | rounds, s, 0, heq, _, _, _ => by
    have hz : ∀ (k : Nat) (t : RingBuffer), freeLoop k t 0 = t := fun k t => by
      cases k with
      | zero => rfl
      | succ k => exact if_pos rfl
    rw [hz, hz]
    exact ⟨rfl, heq⟩
  | 0, s, n + 1, heq, h, hn, hr => by
    have hb : s.buffers = [] := List.length_eq_zero_iff.mp (by omega)
    rw [closed_of_eq heq, content, hb] at hn
    simp [live, Block.empty] at hn
  | rounds + 1, s, n + 1, heq, h, hn, hr => by
    have hclosed := closed_of_eq heq
    rcases hb : s.buffers with - | ⟨b, bs⟩
    · rw [hclosed, content, hb] at hn
      simp [live, Block.empty] at hn
    · rw [hb] at heq hclosed
      obtain ⟨b', bs', hbs⟩ := List.exists_cons_of_ne_nil (show bs ++ [Block.empty] ≠ [] by simp)
      have hbuffers : s.closed.buffers = b :: b' :: bs' := by
        rw [hclosed, ← hbs]
        rfl
      obtain ⟨hlast, hhead, hcontent⟩ := h.content_cons hbuffers
      have hfields : s.closed.head = s.head ∧ s.closed.bufferSize = s.bufferSize ∧
          s.closed.tailBuffer = s.tailBuffer := by
        rw [hclosed]
        exact ⟨rfl, rfl, rfl⟩
      have hsize : s.bufferSize ≥ b.size - s.head := by
        rw [← hfields.2.1, h.size, hcontent, List.length_append, List.length_drop, hfields.1,
          Block.size]
        omega
      have hfront : s.front = b := by rw [RingBuffer.front, hb]; rfl
      have hfront' : s.closed.front = b := by rw [RingBuffer.front, hbuffers]; rfl
      have hne : s.tailBuffer ≠ 0 := by
        rw [heq]
        simp
      rw [freeLoop, freeLoop, if_neg (Nat.succ_ne_zero n), if_neg (Nat.succ_ne_zero n)]
      simp only [hfront, hfront', hfields.1, hfields.2.1, hfields.2.2]
      by_cases hgt : b.size - s.head > n + 1
      · have hpart : s.tailBuffer = 0 ∨ b.size - s.head > n + 1 := .inr hgt
        have hless : ¬ s.bufferSize ≤ n + 1 := by omega
        simp only [if_pos hpart, if_neg hless]
        refine ⟨?_, by simp only [hb, heq]⟩
        rw [closed_of_eq (by simp only [hb, heq]), hclosed]
        simp only [hb]
      · have hwhole : ¬ (s.tailBuffer = 0 ∨ b.size - s.head > n + 1) := by omega
        simp only [if_neg hwhole]
        obtain ⟨hi, hc⟩ := popFront_shaped h hbuffers
        have hpop : closed { s with
            bufferSize := s.bufferSize - (b.size - s.head)
            buffers := bs
            tailBuffer := s.tailBuffer - 1
            head := 0 } = { s.closed with
            bufferSize := s.closed.bufferSize - (b.size - s.closed.head)
            buffers := b' :: bs'
            tailBuffer := s.closed.tailBuffer - 1
            head := 0 } := by
          rw [closed_of_eq (by simp [heq]), hclosed, ← hbs]
        rw [← hpop] at hi hc
        have ih := freeLoop_closed rounds (n + 1 - (b.size - s.head)) (by simp [heq]) hi
          (by rw [hc, List.length_drop, hfields.1]; omega) (by
            rw [hb] at hr
            simpa using hr)
        rw [hpop, hfields.1, hfields.2.1, hfields.2.2] at ih
        simp only [hb, List.tail_cons, hbuffers]
        simp only at ih
        exact ih

/-- Freeing does not see the block that does not exist. -/
theorem free_closed (heq : s.tailBuffer = s.buffers.length) (h : Shaped false s.closed) {n : Nat}
    (hn : n ≤ s.closed.content.length) : (s.free n).closed = s.closed.free n ∧
      (s.free n).tailBuffer = (s.free n).buffers.length := by
  have hlen : s.closed.buffers.length = s.buffers.length + 1 := by
    rw [closed_of_eq heq]
    simp
  unfold free
  rw [hlen]
  exact freeLoop_closed _ n heq h hn (Nat.le_refl _)

theorem release_leading (h : Leading s) :
    Leading s.release ∧ s.release.basicBlockSize = s.basicBlockSize := by
  unfold release
  split
  · exact ⟨h, rfl⟩
  · unfold clear
    split
    · exact ⟨h, rfl⟩
    · exact ⟨fun b hb => by simp at hb, rfl⟩

theorem freeLoop_leading : ∀ (rounds : Nat) {s : RingBuffer} (n : Nat), Leading s →
    Leading (freeLoop rounds s n) ∧ (freeLoop rounds s n).basicBlockSize = s.basicBlockSize
  | 0, _, _, h => ⟨h, rfl⟩
  | rounds + 1, s, n, h => by
    rw [freeLoop]
    by_cases hn : n = 0
    · rw [if_pos hn]
      exact ⟨h, rfl⟩
    rw [if_neg hn]
    by_cases hpart : s.tailBuffer = 0 ∨ s.front.size - s.head > n
    · simp only [if_pos hpart]
      split
      · exact release_leading h
      · exact ⟨h, rfl⟩
    · simp only [if_neg hpart]
      have hpop : s.buffers.tail.dropLast = s.buffers.dropLast.tail := by
        rcases s.buffers with - | ⟨b, - | ⟨b', bs⟩⟩ <;> rfl
      refine freeLoop_leading rounds _ fun b hb => h b ?_
      simp only [hpop] at hb
      exact List.mem_of_mem_tail hb

theorem basicBlockSize_closed : s.closed.basicBlockSize = s.basicBlockSize := by
  unfold closed
  split <;> rfl

/-- What is done to the buffer with its last block was done to the buffer itself. -/
theorem Held.of_closed {t : RingBuffer} (h : Held s) (ht : t.closed = s.closed.free n) : Held t := by
  obtain ⟨hlead, hbasic⟩ := freeLoop_leading s.closed.buffers.length n h.leading
  refine ⟨?_, ?_, ?_⟩
  · rw [← basicBlockSize_closed, ht, free, hbasic, basicBlockSize_closed]
    exact h.basic
  · rw [ht]
    exact (free_shaped h.shaped n).1
  · rw [ht]
    exact hlead

theorem free_held (h : Held s) {n : Nat} (hn : n ≤ s.closed.content.length) :
    Held (s.free n) ∧ (s.free n).closed.content = s.closed.content.drop n := by
  obtain ⟨hshaped, hcontent⟩ := free_shaped h.shaped n
  by_cases heq : s.tailBuffer = s.buffers.length
  · have hfree := (free_closed heq h.shaped hn).1
    rw [hfree]
    exact ⟨h.of_closed hfree, hcontent⟩
  · have hclosed := closed_of_ne heq
    have hlead := freeLoop_leading s.closed.buffers.length n h.leading
    rw [hclosed] at hshaped hcontent hlead ⊢
    obtain ⟨hheld, hsame, -⟩ := hshaped.held (by rw [free, hlead.2]; exact h.basic) hlead.1
    exact ⟨hheld, hsame.trans hcontent⟩

theorem clear_held (h : Held s) : Held s.clear ∧ s.clear.closed.content = [] := by
  obtain ⟨hshaped, hcontent⟩ := clear_shaped h.shaped
  unfold clear
  split
  · rename_i hb
    exact ⟨h, h.content_nil hb⟩
  · rename_i b bs hb
    obtain ⟨b', bs', hb'⟩ := List.exists_cons_of_ne_nil h.closed_ne_nil
    have hclear : s.closed.clear = { s with
        buffers := [.empty], head := 0, tail := 0, tailBuffer := 0, bufferSize := 0 } := by
      unfold clear
      rw [hb']
      simp only [basicBlockSize_closed]
    rw [hclear] at hshaped hcontent
    obtain ⟨hheld, hsame, -⟩ := hshaped.held h.basic (fun b hb => by simp at hb)
    exact ⟨hheld, hsame.trans hcontent⟩

/-! ## Reading -/

theorem Shaped.front_pos (h : Shaped false s) (hlead : Leading s) (hne : s.bufferSize ≠ 0) :
    0 < s.nextDataBlockSize := by
  obtain ⟨b, hb, hlast, hlt, -, -⟩ | ⟨b, b', bs, hb, hlast, -, -⟩ := h.cases hne
  · rw [nextDataBlockSize, if_pos hlast]
    omega
  · have hpos := List.length_pos_iff.mpr (hlead b (by rw [hb]; simp))
    have hhead := h.head
    rw [hb, live, List.headD_cons] at hhead
    rw [nextDataBlockSize, if_neg (by omega), RingBuffer.front, hb, List.headD_cons, Block.size]
    omega

theorem bufferSize_closed (h : Held s) : s.bufferSize = s.closed.content.length := by
  rw [← h.shaped.size]
  unfold closed
  split <;> rfl

theorem readLoop_held : ∀ (rounds : Nat) {s : RingBuffer} {n : Nat}, Held s →
    n ≤ s.closed.content.length → n ≤ rounds →
    (readLoop rounds s n).1 = s.closed.content.take n ∧ Held (readLoop rounds s n).2 ∧
      (readLoop rounds s n).2.closed.content = s.closed.content.drop n
  | 0, s, n, h, _, hr => by
    obtain rfl : n = 0 := by omega
    exact ⟨rfl, h, rfl⟩
  | rounds + 1, s, n, h, hn, hr => by
    rw [readLoop]
    by_cases hn0 : n = 0
    · rw [if_pos hn0, hn0]
      exact ⟨rfl, h, rfl⟩
    rw [if_neg hn0]
    have hne : s.closed.bufferSize ≠ 0 := by
      rw [h.shaped.size]
      omega
    have hb : s.buffers ≠ [] := by
      intro hb
      rw [h.content_nil hb, List.length_nil] at hn
      omega
    have hpos := h.shaped.front_pos h.leading hne
    obtain ⟨hle, -, hfront⟩ := h.shaped.front hne
    have hhead : s.closed.head = s.head := by
      unfold closed
      split <;> rfl
    rw [nextDataBlockSize_closed hb] at hpos hle hfront
    rw [front_closed hb, hhead] at hfront
    obtain ⟨hi, hc⟩ := free_held h (n := min n s.nextDataBlockSize) (by omega)
    obtain ⟨h1, h2, h3⟩ := readLoop_held rounds hi (n := n - min n s.nextDataBlockSize)
      (by rw [hc, List.length_drop]; omega) (by omega)
    refine ⟨?_, h2, ?_⟩
    · simp only [h1, hc]
      rw [hfront _ (Nat.min_le_right _ _), ← List.take_add,
        show min n s.nextDataBlockSize + (n - min n s.nextDataBlockSize) = n from by omega]
    · simp only [h3, hc]
      rw [List.drop_drop,
        show min n s.nextDataBlockSize + (n - min n s.nextDataBlockSize) = n from by omega]

theorem read_held (h : Held s) (n : Nat) :
    (s.read n).1 = s.closed.content.take n ∧ Held (s.read n).2 ∧
      (s.read n).2.closed.content = s.closed.content.drop n := by
  have hsize := bufferSize_closed h
  obtain ⟨h1, h2, h3⟩ := readLoop_held (min s.bufferSize n) h (n := min s.bufferSize n)
    (by omega) (Nat.le_refl _)
  rw [hsize] at h1 h2 h3
  rw [read, hsize]
  refine ⟨?_, h2, ?_⟩
  · rw [h1, Nat.min_comm]
    exact List.take_eq_take_min.symm
  · rw [h3]
    rcases Nat.le_total n s.closed.content.length with hle | hle
    · rw [Nat.min_eq_right hle]
    · rw [Nat.min_eq_left hle, List.drop_length, List.drop_of_length_le hle]

/-! ## Filling -/

theorem setBack_leading (h : Leading s) (f : Block → Block) : Leading (s.setBack f) := by
  unfold setBack
  split
  · exact fun b hb => by simp at hb
  · intro b hb
    rw [List.dropLast_concat] at hb
    exact h b hb

theorem pushBlock_leading (h : Leading s) (htail : s.tail ≠ 0) (bytes : Nat) :
    Leading (s.pushBlock bytes) := by
  intro b hb
  simp only [pushBlock, List.dropLast_concat, setBack] at hb
  split at hb
  · simp at hb
  · rename_i last hlast
    rcases List.mem_append.mp hb with hb | hb
    · exact h b hb
    · rw [List.mem_singleton.mp hb]
      intro hnil
      have hsize := Block.size_resize last s.tail
      rw [Block.size, hnil] at hsize
      exact htail hsize.symm

theorem makeRoom_leading (h : Shaped false s) (hbasic : s.basicBlockSize ≠ 0) (hlead : Leading s)
    {n : Nat} (hn : n < maxByteArraySize) : Leading (s.makeRoom n) := by
  unfold makeRoom
  split
  · rename_i h0
    split
    · exact fun b hb => by simp at hb
    · have hlen := (h.empty h0).1
      unfold setFront
      split
      · exact fun b hb => by simp at hb
      · rename_i b bs hb
        rw [hb] at hlen
        obtain rfl : bs = [] := List.length_eq_zero_iff.mp (by simpa using hlen)
        exact fun b hb => by simp at hb
  · simp only
    split
    · rename_i hpush
      exact pushBlock_leading hlead (by omega) n
    · split
      · exact setBack_leading hlead _
      · exact hlead

theorem chopLoop_leading : ∀ (rounds : Nat) {s : RingBuffer} (n : Nat), Leading s →
    Leading (chopLoop rounds s n) ∧ (chopLoop rounds s n).basicBlockSize = s.basicBlockSize
  | 0, _, _, h => ⟨h, rfl⟩
  | rounds + 1, s, n, h => by
    rw [chopLoop]
    split
    · exact ⟨h, rfl⟩
    · split
      · split
        · exact release_leading h
        · exact ⟨h, rfl⟩
      · exact chopLoop_leading rounds _ fun b hb => h b (List.dropLast_subset _ hb)

theorem makeRoom_basic (n : Nat) : (s.makeRoom n).basicBlockSize = s.basicBlockSize := by
  unfold makeRoom
  split
  · split <;> rfl
  · simp only
    split
    · rfl
    · split <;> rfl

theorem fill_leading (h : Shaped false s) (hbasic : s.basicBlockSize ≠ 0) (hlead : Leading s)
    (n : Nat) (data : Bytes) :
    Leading (s.fill n data) ∧ (s.fill n data).basicBlockSize = s.basicBlockSize := by
  unfold fill reserve
  by_cases hn : n = 0 ∨ n ≥ maxByteArraySize
  · rw [if_pos hn]
    exact ⟨hlead, rfl⟩
  · rw [if_neg hn]
    have hroom := makeRoom_leading h hbasic hlead (n := n) (by omega)
    have hbasic' := makeRoom_basic (s := s) n
    generalize s.makeRoom n = t at hroom hbasic'
    have hchop := chopLoop_leading (writeReserved
      { t with bufferSize := t.bufferSize + n, tail := t.tail + n } n (data.take n)).buffers.length
      (n - data.length) (setBack_leading (s := { t with
        bufferSize := t.bufferSize + n, tail := t.tail + n }) hroom
        (·.store (t.tail + n - n) (data.take n)))
    exact ⟨hchop.1, hchop.2.trans hbasic'⟩

/-- There is a last block, or none at all. -/
def Appendable (s : RingBuffer) : Prop := s.tailBuffer = s.buffers.length → s.buffers = []

instance (s : RingBuffer) : Decidable s.Appendable :=
  inferInstanceAs (Decidable (s.tailBuffer = s.buffers.length → s.buffers = []))

theorem Held.of_appendable (h : Held s) (ha : Appendable s) :
    Shaped false s ∧ Leading s ∧ s.closed.content = s.content := by
  by_cases heq : s.tailBuffer = s.buffers.length
  · have hb := ha heq
    have hc := h.content_nil hb
    have htail := h.tail heq
    have hsize := bufferSize_closed h
    have hempty := h.shaped.empty (by rw [h.shaped.size, hc]; rfl)
    have hshaped := h.shaped
    have hcontent : s.content = [] := by
      rw [content, hb]
      simp [live]
    rw [closed_of_eq heq] at hempty
    rw [hb] at heq
    refine ⟨⟨?_, ?_, ?_, ?_, ?_, .inl hempty.2.1, ?_⟩, ?_, by rw [hc, hcontent]⟩
    · rw [← basicBlockSize_closed]
      exact hshaped.basic
    · rw [hb]
      exact fun b hb => by simp at hb
    · rw [hb]
      exact heq
    · rw [htail]
      exact Nat.zero_le _
    · rw [hcontent, hsize, hc]
    · rw [hb]
      exact .nil
    · rw [Leading, hb]
      exact fun b hb => by simp at hb
  · have hclosed := closed_of_ne heq
    have hshaped := h.shaped
    have hlead := h.leading
    rw [hclosed] at hshaped hlead ⊢
    exact ⟨hshaped, hlead, rfl⟩

theorem fill_held (h : Held s) (ha : Appendable s) (n : Nat) (data : Bytes) :
    Held (s.fill n data) ∧ Appendable (s.fill n data) ∧ (0 < n → n < maxByteArraySize →
      data.length ≤ n → (s.fill n data).closed.content = s.closed.content ++ data) := by
  obtain ⟨hshaped, hlead, hsame⟩ := h.of_appendable ha
  obtain ⟨hshaped', hcontent⟩ := fill_shaped hshaped n data
  obtain ⟨hlead', hbasic⟩ := fill_leading hshaped h.basic hlead n data
  obtain ⟨hheld, hsame', happ⟩ := hshaped'.held (by rw [hbasic]; exact h.basic) hlead'
  exact ⟨hheld, happ, fun h0 hlt hle => by rw [hsame', hsame, hcontent h0 hlt hle]⟩

/-! ## Pushing back -/

/-- The buffer to which a byte is put back: where bytes are gone from the first block it goes
there, else to the end of a new first block. -/
def pushed (s : RingBuffer) (c : UInt8) : RingBuffer :=
  let t := if s.head > 0 then { s with head := s.head - 1 } else
    { s with
      buffers := .ofSize (max s.basicBlockSize 1) :: s.buffers
      tailBuffer := s.tailBuffer + 1
      head := max s.basicBlockSize 1 - 1 }
  { t with bufferSize := s.bufferSize + 1 }.writeFront [c]

theorem prepend_one (hbasic : s.basicBlockSize ≠ 0) (c : UInt8) :
    s.prepend [c] = some (s.pushed c) := by
  have hone : ¬ ([c].length = 0 ∨ [c].length ≥ maxByteArraySize) := by simp [maxByteArraySize]
  unfold prepend reserveFront pushed
  rw [if_neg hone]
  by_cases hhead : s.head > 0
  · have hroom : ¬ (s.head < [c].length ∨ s.basicBlockSize = 0) := by
      simp only [List.length_singleton]
      omega
    rw [if_neg hroom]
    simp only [if_pos hhead]
    rfl
  · have hroom : s.head < [c].length ∨ s.basicBlockSize = 0 := .inl (by
      simp only [List.length_singleton]
      omega)
    rw [if_pos hroom, dropHead, if_neg hhead, Option.map_some, makeFront, if_neg hbasic]
    simp only [if_neg hhead]
    rfl

theorem pushed_leading (hlead : Leading s) (hne : s.buffers ≠ []) (c : UInt8) :
    Leading (s.pushed c) ∧ (s.pushed c).basicBlockSize = s.basicBlockSize := by
  have hstore : ∀ (b : Block) (pos : Nat), (b.store pos [c]).bytes ≠ [] := by
    intro b pos
    simp [Block.store]
  obtain ⟨b, bs, hb⟩ := List.exists_cons_of_ne_nil hne
  unfold pushed
  by_cases hhead : s.head > 0
  · simp only [if_pos hhead, writeFront, setFront, hb]
    refine ⟨fun b' hb' => ?_, trivial⟩
    cases bs with
    | nil => simp at hb'
    | cons b₁ bs =>
      rcases List.mem_cons.mp hb' with rfl | hb'
      · exact hstore b _
      · refine hlead b' ?_
        rw [hb]
        exact List.mem_cons_of_mem _ hb'
  · simp only [if_neg hhead, writeFront, setFront, hb]
    refine ⟨fun b' hb' => ?_, trivial⟩
    rcases List.mem_cons.mp hb' with rfl | hb'
    · exact hstore _ _
    · refine hlead b' ?_
      rw [hb]
      exact hb'

theorem pushed_closed (heq : s.tailBuffer = s.buffers.length) (hhead : s.head > 0 → s.buffers ≠ [])
    (c : UInt8) : (s.pushed c).closed = s.closed.pushed c := by
  have hclosed := closed_of_eq heq
  by_cases hh : s.head > 0
  · obtain ⟨b, bs, hb⟩ := List.exists_cons_of_ne_nil (hhead hh)
    rw [hb] at heq hclosed
    have hlast : (s.pushed c).tailBuffer = (s.pushed c).buffers.length := by
      simp [pushed, hh, writeFront, setFront, hb, heq]
    rw [closed_of_eq hlast, hclosed]
    simp [pushed, hh, writeFront, setFront, hb]
  · have hlast : (s.pushed c).tailBuffer = (s.pushed c).buffers.length := by
      simp [pushed, hh, writeFront, setFront, heq]
    rw [closed_of_eq hlast, hclosed]
    simp [pushed, hh, writeFront, setFront]

theorem pushed_held (h : Held s) (c : UInt8) :
    Held (s.pushed c) ∧ (s.pushed c).closed.content = c :: s.closed.content := by
  have hbasic : s.closed.basicBlockSize ≠ 0 := by
    rw [basicBlockSize_closed]
    exact h.basic
  have hsound : s.closed.FrontSound [c].length := by
    refine ⟨by simp [maxByteArraySize], ?_⟩
    rw [if_neg hbasic, List.length_singleton]
    rcases Nat.eq_zero_or_pos s.closed.head with hz | hpos
    · exact .inr ⟨hz, h.closed_ne_nil⟩
    · exact .inl hpos
  obtain ⟨t, ht, hshaped, hcontent⟩ := prepend_shaped h.shaped (by simp) hsound
  rw [prepend_one hbasic, Option.some.injEq] at ht
  subst ht
  obtain ⟨hlead, hsame⟩ := pushed_leading h.leading h.closed_ne_nil c
  by_cases heq : s.tailBuffer = s.buffers.length
  · have hhead : s.head > 0 → s.buffers ≠ [] := by
      intro hpos hb
      have hlt := h.shaped.head
      rw [closed_of_eq heq, hb] at hlt
      simp [live, Block.empty] at hlt
      omega
    have hpushed := pushed_closed heq hhead c
    refine ⟨⟨?_, ?_, ?_⟩, ?_⟩
    · rw [← basicBlockSize_closed, hpushed, hsame]
      exact hbasic
    · rw [hpushed]
      exact hshaped
    · rw [hpushed]
      exact hlead
    · rw [hpushed]
      exact hcontent
  · have hclosed := closed_of_ne heq
    rw [hclosed] at hshaped hcontent hlead hsame ⊢
    obtain ⟨hheld, hc, -⟩ := hshaped.held (by rw [hsame]; exact h.basic) hlead
    exact ⟨hheld, hc.trans hcontent⟩

/-! ## Looking ahead -/

variable {t : RingBuffer} (hlen : ∀ i b, t.blockLength i b = s.blockLength i b)

include hlen

theorem peekLoop_closed {b : Block} (ht : s.tail = 0) : ∀ (bs : List Block) {i : Nat} (pos left : Nat),
    i + bs.length = s.tailBuffer → t.peekLoop (bs ++ [b]) i pos left = s.peekLoop bs i pos left
  | [], i, pos, left, hi => by
    have hzero : t.blockLength i b = 0 := by
      rw [hlen, blockLength, if_pos (by simpa using hi), ht]
    simp [peekLoop, hzero]
  | b' :: bs, i, pos, left, hi => by
    have hi' : i + 1 + bs.length = s.tailBuffer := by
      rw [List.length_cons] at hi
      omega
    rw [List.cons_append, peekLoop, peekLoop, hlen]
    simp only [peekLoop_closed ht bs _ _ hi']

theorem indexOfLoop_closed {b : Block} {c : UInt8} {n pos : Nat} (ht : s.tail = 0) :
    ∀ (bs : List Block) {i : Nat} (index : Int), i + bs.length = s.tailBuffer →
    t.indexOfLoop c n pos (bs ++ [b]) i index = s.indexOfLoop c n pos bs i index
  | [], i, index, hi => by
    have hzero : t.blockLength i b = 0 := by
      rw [hlen, blockLength, if_pos (by simpa using hi), ht]
    have hnone : (min (index + ((0 : Nat) : Int)) n - max index 0).toNat = 0 := by omega
    rw [List.nil_append]
    unfold indexOfLoop
    rw [hzero]
    simp only [hnone, List.take_zero, indexOfLoop, List.idxOf?_nil]
    split
    · split <;> rfl
    · rfl
  | b' :: bs, i, index, hi => by
    have hi' : i + 1 + bs.length = s.tailBuffer := by
      rw [List.length_cons] at hi
      omega
    rw [List.cons_append, indexOfLoop, indexOfLoop, hlen]
    simp only [indexOfLoop_closed ht bs _ hi']

omit hlen

theorem peek_held (h : Held s) (n pos : Nat) :
    s.peek n pos = (s.closed.content.drop pos).take n := by
  rw [← peek_shaped h.shaped]
  by_cases heq : s.tailBuffer = s.buffers.length
  · rw [closed_of_eq heq, peek, peek]
    exact (peekLoop_closed (s := s) (t := { s with buffers := s.buffers ++ [.empty] }) (fun _ _ => rfl)
      (h.tail heq) s.buffers _ _ (by rw [heq, Nat.zero_add])).symm
  · rw [closed_of_ne heq]

theorem indexOf_held (h : Held s) (c : UInt8) (n pos : Nat) :
    s.indexOf c n pos = (((s.closed.content.drop pos).take n).idxOf? c).map (· + pos) := by
  rw [← indexOf_shaped h.shaped]
  by_cases heq : s.tailBuffer = s.buffers.length
  · rw [closed_of_eq heq, indexOf, indexOf]
    simp only [indexOfLoop_closed (s := s) (t := { s with buffers := s.buffers ++ [.empty] })
      (fun _ _ => rfl) (h.tail heq) s.buffers _
      (show 0 + s.buffers.length = s.tailBuffer by rw [heq, Nat.zero_add])]
  · rw [closed_of_ne heq]

/-! ## As a queue -/

abbrev Pushable := { s : RingBuffer // Held s }

theorem new_held (n : Nat) : Held (new (max 1 (min n (maxByteArraySize - 1)))) ∧
    (new (max 1 (min n (maxByteArraySize - 1)))).closed.content = [] := by
  have hmax : (1 : Nat) < maxByteArraySize := by decide
  have hbasic : max 1 (min n (maxByteArraySize - 1)) < maxByteArraySize := by omega
  obtain ⟨hheld, hc, -⟩ := (@new_shaped false _ hbasic).held
    (by simp only [new]; omega) (fun b hb => by simp [new] at hb)
  exact ⟨hheld, hc.trans rfl⟩

theorem appendable_of_nil (h : Held s) (hc : s.closed.content = []) : Appendable s := by
  intro heq
  by_contra hb
  obtain ⟨b, bs, hb⟩ := List.exists_cons_of_ne_nil hb
  have hsize := h.shaped.empty (by rw [h.shaped.size, hc]; rfl)
  rw [closed_of_eq heq, hb] at hsize
  simp at hsize

/-- The basic block size is one of which a block can be allocated. No more bytes are freed than
there are, and none are appended where there is no last block. -/
instance : PushQueue Pushable where
  content s := s.1.closed.content
  new n := ⟨_, (new_held n).1⟩
  size s := s.1.bufferSize
  clear s := ⟨s.1.clear, (clear_held s.2).1⟩
  free s n := if h : n ≤ s.1.closed.content.length then ⟨s.1.free n, (free_held s.2 h).1⟩ else s
  read s n := ((s.1.read n).1, ⟨(s.1.read n).2, (read_held s.2 n).2.1⟩)
  peek s n pos := s.1.peek n pos
  indexOf s c n pos := s.1.indexOf c n pos
  fill s n data := if h : Appendable s.1 then ⟨s.1.fill n data, (fill_held s.2 h n data).1⟩ else s
  unget s c := ⟨s.1.pushed c, (pushed_held s.2 c).1⟩
  Appendable s := Appendable s.1
  content_new n := (new_held n).2
  size_eq s := bufferSize_closed s.2
  content_clear s := (clear_held s.2).2
  content_free s n h := by
    simp only [dif_pos h]
    exact (free_held s.2 h).2
  free_zero s := by
    simp only [dif_pos (Nat.zero_le _)]
    exact Subtype.ext (RingBuffer.free_zero s.1)
  read_fst s n := (read_held s.2 n).1
  content_read s n := (read_held s.2 n).2.2
  peek_eq s n pos := peek_held s.2 n pos
  indexOf_eq s c n pos := indexOf_held s.2 c n pos
  content_unget s c := (pushed_held s.2 c).2
  appendable_nil s h := appendable_of_nil s.2 h
  appendable_fill s n data h _ _ _ := by
    simp only [dif_pos h]
    exact (fill_held s.2 h n data).2.1
  content_fill s n data h h0 hlt hle := by
    simp only [dif_pos h]
    exact (fill_held s.2 h n data).2.2 h0 hlt hle

end Libpdk.Ds.RingBuffer
