import Libpdk.Ds.RingBuffer
import Mathlib.Data.List.Chain
import Mathlib.Data.Nat.Log

/-!
# The content of a ring buffer

`content`: what is in use of the blocks, from `m_head` on. `Inv` ties the block list
to the positions in it; taking bytes at either end and filling keep it, and act on
the content as they should.
-/
namespace Libpdk.Ds

namespace Block

@[simp] theorem size_ofSize (n : Nat) : (ofSize n).size = n := List.length_replicate

@[simp] theorem size_resize (b : Block) (n : Nat) : (b.resize n).size = n := by
  simp only [size, resize, List.length_append, List.length_take, List.length_replicate]
  omega

theorem take_resize (b : Block) {k n : Nat} (hk : k ≤ b.size) (hn : k ≤ n) :
    (b.resize n).bytes.take k = b.bytes.take k := by
  have hlen : k ≤ (b.bytes.take n).length := by
    rw [List.length_take]
    exact Nat.le_min.mpr ⟨hn, hk⟩
  rw [resize, List.take_append_of_le_length hlen, List.take_take, Nat.min_eq_left hn]

/-- A growing block of no more than `n` bytes stays below the limit. -/
theorem growing_le {n : Nat} (h : n < maxByteArraySize) : growing (n + 1) ≤ maxByteArraySize := by
  have hheader : headerSize = 24 := rfl
  have hmax : maxByteArraySize = 2147483623 := rfl
  have hpow : 2 ^ (Nat.log2 (n + 1 + headerSize) + 1) ≤ 2 ^ 31 := by
    refine Nat.pow_le_pow_right (by omega) ?_
    exact (Nat.log2_lt (by omega)).mpr (by omega)
  rw [growing]
  by_cases hmore : 2147483648 ≤ 2 ^ (Nat.log2 (n + 1 + headerSize) + 1)
  · simp only [if_pos hmore]
    omega
  · simp only [if_neg hmore]
    omega

theorem alloc_resize {b : Block} {n : Nat} (hb : b.alloc ≤ maxByteArraySize)
    (hn : n < maxByteArraySize) : (b.resize n).alloc ≤ maxByteArraySize := by
  simp only [resize]
  split
  · exact Nat.zero_le _
  · split
    · exact hn
    · split
      · exact growing_le hn
      · exact hb

end Block

namespace RingBuffer

/-- The bytes in use of each block. -/
def live (tail : Nat) : List Block → List Bytes
  | [] => []
  | [b] => [b.bytes.take tail]
  | b :: b' :: bs => b.bytes :: live tail (b' :: bs)

theorem live_concat (tail : Nat) (b : Block) : ∀ bs : List Block,
    live tail (bs ++ [b]) = bs.map (·.bytes) ++ [b.bytes.take tail]
  | [] => rfl
  | [_] => rfl
  | b₁ :: b₂ :: bs => by
    have := live_concat tail b (b₂ :: bs)
    simp only [List.cons_append, List.map_cons, live] at this ⊢
    rw [this]

def content (s : RingBuffer) : Bytes := (live s.tail s.buffers).flatten.drop s.head

/-- Which blocks may stand side by side: ones that both have bytes, or, where blocks may be empty
(`full` is false), ones of which one has. -/
def Neighbours (full : Bool) (a b : Bytes) : Prop :=
  if full = true then a ≠ [] ∧ b ≠ [] else a ≠ [] ∨ b ≠ []

theorem Neighbours.not_both {full : Bool} {a b : Bytes} (h : Neighbours full a b) :
    a ≠ [] ∨ b ≠ [] := by
  rw [Neighbours] at h
  split at h
  · exact .inl h.1
  · exact h

/-- What is in use of the blocks, and where it begins and ends. An empty block is one that an
empty array was appended as. -/
structure Shaped (full : Bool) (s : RingBuffer) : Prop where
  basic : s.basicBlockSize < maxByteArraySize
  blocks : ∀ b ∈ s.buffers, b.size < maxByteArraySize ∧ b.alloc ≤ maxByteArraySize
  tailBuffer : s.tailBuffer = s.buffers.length - 1
  tail : s.tail ≤ (s.buffers.getLastD .empty).size
  size : s.bufferSize = s.content.length
  head : s.head = 0 ∨ s.head < ((live s.tail s.buffers).headD []).length
  gaps : (live s.tail s.buffers).IsChain (Neighbours full)

variable {full : Bool} {s : RingBuffer}

theorem Shaped.content_nil (h : Shaped full s) : s.bufferSize = 0 ↔ s.content = [] := by
  rw [h.size, List.length_eq_zero_iff]

theorem Shaped.tail_le (h : Shaped full s) {b : Block} {bs : List Block}
    (hb : s.buffers = bs ++ [b]) : s.tail ≤ b.size := by
  have := h.tail
  rwa [hb, List.getLastD_concat] at this

/-- The first one of several blocks. -/
theorem Shaped.content_cons (h : Shaped full s) {b b' : Block} {bs : List Block}
    (hb : s.buffers = b :: b' :: bs) : s.tailBuffer = bs.length + 1 ∧ s.head ≤ b.size ∧
      s.content = b.bytes.drop s.head ++ (live s.tail (b' :: bs)).flatten := by
  have hlast := h.tailBuffer
  have hhead := h.head
  rw [hb] at hlast hhead
  simp only [live, List.headD_cons] at hhead
  have hle : s.head ≤ b.size := by
    rw [Block.size]
    omega
  refine ⟨hlast, hle, ?_⟩
  rw [content, hb, live, List.flatten_cons, List.drop_append_of_le_length hle]

theorem Shaped.cases (h : Shaped full s) (hne : s.bufferSize ≠ 0) :
    (∃ b, s.buffers = [b] ∧ s.tailBuffer = 0 ∧ s.head < s.tail ∧ s.tail ≤ b.size ∧
      s.content = (b.bytes.take s.tail).drop s.head) ∨
    ∃ b b' bs, s.buffers = b :: b' :: bs ∧ s.tailBuffer = bs.length + 1 ∧ s.head ≤ b.size ∧
      s.content = b.bytes.drop s.head ++ (live s.tail (b' :: bs)).flatten := by
  have hc : s.content ≠ [] := fun hc => hne (h.content_nil.mpr hc)
  rcases hb : s.buffers with - | ⟨b, - | ⟨b', bs⟩⟩
  · exact absurd (by simp [content, hb, live]) hc
  · have hlast := h.tailBuffer
    have hle := h.tail_le (show s.buffers = [] ++ [b] from hb)
    have hcontent : s.content = (b.bytes.take s.tail).drop s.head := by
      simp [content, hb, live]
    rw [hb] at hlast
    refine .inl ⟨b, rfl, hlast, ?_, hle, hcontent⟩
    have hpos := List.length_pos_iff.mpr hc
    rw [hcontent, List.length_drop, List.length_take] at hpos
    omega
  · exact .inr ⟨b, b', bs, rfl, h.content_cons hb⟩

theorem headD_le_flatten (l : List Bytes) : (l.headD []).length ≤ l.flatten.length := by
  cases l with
  | nil => exact Nat.le_refl _
  | cons bytes l =>
    rw [List.flatten_cons, List.length_append]
    exact Nat.le_add_right _ _

/-- Without bytes there is one block at most. -/
theorem Shaped.empty (h : Shaped full s) (h0 : s.bufferSize = 0) :
    s.buffers.length ≤ 1 ∧ s.head = 0 ∧ s.tail = 0 := by
  have hc := h.content_nil.mp h0
  have hlen := congrArg List.length hc
  rw [content, List.length_drop, List.length_nil] at hlen
  have hle := headD_le_flatten (live s.tail s.buffers)
  have hhead : s.head = 0 := by
    rcases h.head with hz | hlt
    · exact hz
    · omega
  have hflat : (live s.tail s.buffers).flatten = [] := List.length_eq_zero_iff.mp (by omega)
  rw [List.flatten_eq_nil_iff] at hflat
  rcases hb : s.buffers with - | ⟨b, - | ⟨b', bs⟩⟩
  · have := h.tail
    rw [hb] at this
    exact ⟨Nat.zero_le _, hhead, Nat.le_zero.mp this⟩
  · have hle := h.tail_le (show s.buffers = [] ++ [b] from hb)
    have := congrArg List.length (hflat (b.bytes.take s.tail) (by simp [hb, live]))
    rw [List.length_take, List.length_nil] at this
    simp only [Block.size] at hle
    exact ⟨Nat.le_refl _, hhead, by omega⟩
  · have hgaps := h.gaps
    rw [hb] at hflat hgaps
    exfalso
    cases bs with
    | nil =>
      simp only [live, List.isChain_cons_cons] at hgaps hflat
      exact hgaps.1.not_both.elim (absurd (hflat _ (by simp))) (absurd (hflat _ (by simp)))
    | cons b'' bs =>
      simp only [live, List.isChain_cons_cons] at hgaps hflat
      exact hgaps.1.not_both.elim (absurd (hflat _ (by simp))) (absurd (hflat _ (by simp)))

theorem new_shaped {growth : Nat} (h : growth < maxByteArraySize) : Shaped full (new growth) :=
  ⟨h, by simp [new], rfl, Nat.le_refl _, rfl, .inl rfl, .nil⟩

/-! ## Taking bytes away -/

theorem clear_shaped (h : Shaped full s) : Shaped full s.clear ∧ s.clear.content = [] := by
  rw [clear]
  cases hb : s.buffers with
  | nil =>
    have hc : s.content = [] := by simp [content, hb, live]
    exact ⟨h, hc⟩
  | cons b bs =>
    refine ⟨⟨h.basic, ?_, rfl, Nat.zero_le _, rfl, .inl rfl, .singleton _⟩, rfl⟩
    intro b' hb'
    rw [List.mem_singleton.mp hb']
    exact ⟨by decide, Nat.zero_le _⟩

theorem release_shaped (h : Shaped full s) (h0 : s.tailBuffer = 0) :
    Shaped full s.release ∧ s.release.content = [] := by
  rw [release]
  split
  · have hlen : s.buffers.length ≤ 1 := by
      have := h.tailBuffer
      omega
    have hc : (live 0 s.buffers).flatten = [] ∧ (live 0 s.buffers).IsChain (Neighbours full) := by
      rcases hb : s.buffers with - | ⟨b, - | ⟨b', bs⟩⟩
      · exact ⟨rfl, .nil⟩
      · exact ⟨by simp [live], .singleton _⟩
      · rw [hb] at hlen
        simp at hlen
    refine ⟨⟨h.basic, h.blocks, h.tailBuffer, Nat.zero_le _, ?_, .inl rfl, hc.2⟩, ?_⟩
    · simp [content, hc.1]
    · simp [content, hc.1]
  · exact clear_shaped h

/-- One round takes the first block away. -/
theorem popFront_shaped (h : Shaped full s) {b b' : Block} {bs : List Block}
    (hb : s.buffers = b :: b' :: bs) :
    let s' := { s with
      bufferSize := s.bufferSize - (b.size - s.head)
      buffers := b' :: bs
      tailBuffer := s.tailBuffer - 1
      head := 0 }
    Shaped full s' ∧ s'.content = s.content.drop (b.size - s.head) := by
  intro s'
  obtain ⟨hlast, hhead, hcontent⟩ := h.content_cons hb
  have hdrop : s'.content = s.content.drop (b.size - s.head) := by
    rw [hcontent, show b.size - s.head = (b.bytes.drop s.head).length from
      (List.length_drop).symm, List.drop_left]
    rfl
  refine ⟨⟨h.basic, ?_, ?_, ?_, ?_, .inl rfl, ?_⟩, hdrop⟩
  · intro b₁ hb₁
    exact h.blocks b₁ (by rw [hb]; exact List.mem_cons_of_mem _ hb₁)
  · simp [s', hlast]
  · have := h.tail
    rw [hb] at this
    simpa [s'] using this
  · rw [hdrop, List.length_drop, ← h.size]
  · have := h.gaps
    rw [hb, live] at this
    exact this.tail

theorem freeLoop_shaped : ∀ (rounds : Nat) {s : RingBuffer} (n : Nat), Shaped full s →
    s.buffers.length ≤ rounds →
    Shaped full (freeLoop rounds s n) ∧ (freeLoop rounds s n).content = s.content.drop n
  | 0, s, n, h, hr => by
    have hb : s.buffers = [] := List.length_eq_zero_iff.mp (by omega)
    have hc : s.content = [] := by simp [content, hb, live]
    exact ⟨h, by simp [freeLoop, hc]⟩
  | rounds + 1, s, n, h, hr => by
    rw [freeLoop]
    by_cases hn : n = 0
    · rw [if_pos hn, hn, List.drop_zero]
      exact ⟨h, rfl⟩
    rw [if_neg hn]
    by_cases hall : s.tailBuffer = 0 ∧ s.bufferSize ≤ n
    · rw [if_pos (.inl hall.1), if_pos hall.2]
      obtain ⟨hi, hc⟩ := release_shaped h hall.1
      rw [hc, List.drop_of_length_le (by rw [← h.size]; exact hall.2)]
      exact ⟨hi, rfl⟩
    have hne : s.bufferSize ≠ 0 := by
      intro h0
      have := (h.empty h0).1
      exact hall ⟨by rw [h.tailBuffer]; omega, by omega⟩
    -- a part of the first block is freed
    have hpart : n < ((live s.tail s.buffers).headD []).length - s.head →
        Shaped full { s with head := s.head + n, bufferSize := s.bufferSize - n } ∧
        content { s with head := s.head + n, bufferSize := s.bufferSize - n } =
          s.content.drop n := by
      intro hlt
      have hc : content { s with head := s.head + n, bufferSize := s.bufferSize - n } =
          s.content.drop n := by
        rw [content, content, List.drop_drop]
      refine ⟨⟨h.basic, h.blocks, h.tailBuffer, h.tail, ?_, .inr ?_, h.gaps⟩, hc⟩
      · rw [hc, List.length_drop, ← h.size]
      · simp only
        omega
    obtain ⟨b, hb, hlast, hlt, htail, hcontent⟩ | ⟨b, b', bs, hb, hlast, hlt, hcontent⟩ :=
      h.cases hne
    · have hgt : s.bufferSize > n := by
        rw [not_and] at hall
        exact not_le.mp (hall hlast)
      rw [if_pos (.inl hlast), if_neg (not_le.mpr hgt)]
      refine hpart ?_
      have hlen := h.size
      rw [hcontent, List.length_drop] at hlen
      rw [hb]
      simp only [live, List.headD_cons]
      omega
    · have hfront : s.front = b := by rw [front, hb]; rfl
      have hsize : s.bufferSize ≥ b.size - s.head := by
        rw [h.size, hcontent, List.length_append, List.length_drop, Block.size]
        omega
      rw [hfront]
      by_cases hgt : b.size - s.head > n
      · rw [if_pos (.inr hgt), if_neg (by omega)]
        refine hpart ?_
        rw [hb]
        exact hgt
      · rw [if_neg (by simp only [hlast]; omega)]
        obtain ⟨hi, hc⟩ := popFront_shaped h hb
        simp only [hb, List.tail_cons]
        have ih := freeLoop_shaped rounds (n - (b.size - s.head)) hi (by
          rw [hb] at hr
          simpa using hr)
        refine ⟨ih.1, ih.2.trans ?_⟩
        rw [hc, List.drop_drop, show b.size - s.head + (n - (b.size - s.head)) = n from by omega]

theorem free_shaped (h : Shaped full s) (n : Nat) :
    Shaped full (s.free n) ∧ (s.free n).content = s.content.drop n :=
  freeLoop_shaped _ n h (Nat.le_refl _)

/-! ## Taking bytes back -/

/-- The last block may be another one that has bytes. -/
theorem Neighbours.replace {l : List Bytes} {x x' : Bytes} (hx : x' ≠ [])
    (h : (l ++ [x]).IsChain (Neighbours full)) : (l ++ [x']).IsChain (Neighbours full) := by
  rw [List.isChain_append] at h ⊢
  refine ⟨h.1, .singleton _, fun y hy y' hy' => ?_⟩
  have hlast := h.2.2 y hy x (by simp)
  obtain rfl : x' = y' := by simpa using hy'
  rw [Neighbours] at hlast ⊢
  split
  · rename_i hfull
    rw [if_pos hfull] at hlast
    exact ⟨hlast.1, hx⟩
  · exact .inr hx

/-- One round takes the last block away. -/
theorem popBack_shaped (h : Shaped full s) {b b' : Block} {bs : List Block}
    (hb : s.buffers = bs ++ [b'] ++ [b]) :
    let s' := { s with
      bufferSize := s.bufferSize - s.tail
      buffers := bs ++ [b']
      tailBuffer := s.tailBuffer - 1
      tail := b'.size }
    Shaped full s' ∧ s'.content = s.content.take (s.content.length - s.tail) ∧
      s.tail ≤ s.content.length := by
  intro s'
  have hlive : live s.tail s.buffers = live b'.size (bs ++ [b']) ++ [b.bytes.take s.tail] := by
    rw [hb, live_concat, live_concat, List.map_append, List.map_singleton, Block.size,
      List.take_length]
  have hhead : s.head = 0 ∨ s.head < ((live b'.size (bs ++ [b'])).headD []).length := by
    have := h.head
    rw [hlive] at this
    cases hl : live b'.size (bs ++ [b']) with
    | nil => exact absurd hl (by rw [live_concat]; simp)
    | cons bytes l =>
      rw [hl] at this
      exact this
  have hflat := headD_le_flatten (live b'.size (bs ++ [b']))
  have htail := h.tail_le hb
  have hcontent : s.content = s'.content ++ b.bytes.take s.tail := by
    rw [content, hlive, List.flatten_append, List.drop_append_of_le_length (by omega),
      List.flatten_singleton]
    rfl
  have hlen : s.content.length = s'.content.length + s.tail := by
    rw [hcontent, List.length_append, List.length_take]
    exact congrArg _ (Nat.min_eq_left htail)
  refine ⟨⟨h.basic, ?_, ?_, ?_, ?_, hhead, ?_⟩, ?_, by omega⟩
  · intro b₁ hb₁
    exact h.blocks b₁ (by rw [hb]; exact List.mem_append_left _ hb₁)
  · have := h.tailBuffer
    rw [hb] at this
    simp [s', this]
  · simp [s']
  · have := h.size
    simp only [s'] at hlen ⊢
    omega
  · have := h.gaps
    rw [hlive] at this
    exact this.left_of_append
  · rw [hlen, Nat.add_sub_cancel, hcontent, List.take_left]

theorem concat_of_ne_nil {bs : List Block} (h : bs ≠ []) : ∃ bs' b, bs = bs' ++ [b] :=
  ⟨bs.dropLast, bs.getLast h, (List.dropLast_append_getLast h).symm⟩

/-- A part of the last block goes away. -/
theorem shrinkTail_shaped (h : Shaped full s) {b : Block} {bs : List Block}
    (hb : s.buffers = bs ++ [b]) {n : Nat} (hn : n < s.tail) (hgt : n < s.bufferSize) :
    let s' := { s with tail := s.tail - n, bufferSize := s.bufferSize - n }
    Shaped full s' ∧ s'.content = s.content.take (s.content.length - n) := by
  intro s'
  have htail : s.tail ≤ b.bytes.length := h.tail_le hb
  have hhead := h.head
  have hgaps := h.gaps
  rw [hb, live_concat] at hhead hgaps
  have hcut : b.bytes.take (s.tail - n) = (b.bytes.take s.tail).take (s.tail - n) := by
    rw [List.take_take, Nat.min_eq_left (Nat.sub_le _ _)]
  have hlen : (b.bytes.take s.tail).length = s.tail := by
    rw [List.length_take, Nat.min_eq_left htail]
  have hc : s'.content = s.content.take (s.content.length - n) := by
    simp only [s', content, hb, live_concat, List.flatten_append, List.flatten_singleton]
    generalize (bs.map (·.bytes)).flatten = l
    rw [List.length_drop, Nat.sub_right_comm, ← List.drop_take, List.length_append, hlen,
      List.take_append, List.take_of_length_le (show l.length ≤ l.length + s.tail - n by omega),
      hcut, show l.length + s.tail - n - l.length = s.tail - n from by omega]
  refine ⟨⟨h.basic, h.blocks, h.tailBuffer, ?_, ?_, ?_, ?_⟩, hc⟩
  · exact Nat.le_trans (Nat.sub_le _ _) h.tail
  · rw [hc, List.length_take, ← h.size]
    simp only [s']
    omega
  · simp only [s', hb, live_concat]
    cases bs with
    | nil =>
      have hsize := h.size
      simp only [content, hb, List.nil_append, live, List.flatten_singleton, List.length_drop,
        hlen] at hsize
      simp only [List.map_nil, List.nil_append, List.headD_cons, hcut, List.length_take] at hhead ⊢
      omega
    | cons b₁ bs => exact hhead
  · simp only [s', hb, live_concat]
    refine Neighbours.replace (fun hnil => ?_) hgaps
    have := congrArg List.length hnil
    rw [hcut, List.length_take, List.length_nil] at this
    omega

theorem chopLoop_shaped : ∀ (rounds : Nat) {s : RingBuffer} (n : Nat), Shaped full s →
    s.buffers.length ≤ rounds →
    Shaped full (chopLoop rounds s n) ∧
      (chopLoop rounds s n).content = s.content.take (s.content.length - n)
  | 0, s, n, h, hr => by
    have hb : s.buffers = [] := List.length_eq_zero_iff.mp (by omega)
    have hc : s.content = [] := by simp [content, hb, live]
    exact ⟨h, by simp [chopLoop, hc]⟩
  | rounds + 1, s, n, h, hr => by
    rw [chopLoop]
    by_cases hn : n = 0
    · rw [if_pos hn, hn, Nat.sub_zero, List.take_length]
      exact ⟨h, rfl⟩
    rw [if_neg hn]
    by_cases hall : s.tailBuffer = 0 ∧ s.bufferSize ≤ n
    · rw [if_pos (.inl hall.1), if_pos hall.2]
      obtain ⟨hi, hc⟩ := release_shaped h hall.1
      rw [hc, ← h.size, Nat.sub_eq_zero_of_le hall.2, List.take_zero]
      exact ⟨hi, rfl⟩
    have hne : s.bufferSize ≠ 0 := by
      intro h0
      have := (h.empty h0).1
      exact hall ⟨by rw [h.tailBuffer]; omega, by omega⟩
    obtain ⟨b, hb, hlast, hlt, htail, hcontent⟩ | ⟨b, b', bs, hb, hlast, hlt, hcontent⟩ :=
      h.cases hne
    · have hgt : n < s.bufferSize := by
        rw [not_and] at hall
        exact not_le.mp (hall hlast)
      rw [if_pos (.inl hlast), if_neg (not_le.mpr hgt)]
      refine shrinkTail_shaped h (show s.buffers = [] ++ [b] from hb) ?_ hgt
      have hlen := h.size
      rw [hcontent, List.length_drop, List.length_take] at hlen
      omega
    · obtain ⟨bs', c, hc⟩ := concat_of_ne_nil (show b' :: bs ≠ [] by simp)
      obtain ⟨bs'', c', hc'⟩ := concat_of_ne_nil (show b :: bs' ≠ [] by simp)
      have hb' : s.buffers = bs'' ++ [c'] ++ [c] := by
        rw [hb, hc, ← List.cons_append, hc']
      obtain ⟨hi, hcut, hlt'⟩ := popBack_shaped h hb'
      rw [← h.size] at hlt'
      by_cases hgt : s.tail > n
      · rw [if_pos (.inr hgt), if_neg (by omega)]
        exact shrinkTail_shaped h hb' hgt (by omega)
      · rw [if_neg (by simp only [hlast]; omega)]
        simp only [hb', List.dropLast_concat, List.getLastD_concat]
        have ih := chopLoop_shaped rounds (n - s.tail) hi (by
          rw [hb'] at hr
          simpa using hr)
        refine ⟨ih.1, ih.2.trans ?_⟩
        rw [hcut, List.length_take, List.take_take, ← h.size]
        congr 1
        omega

theorem chop_shaped (h : Shaped full s) (n : Nat) :
    Shaped full (s.chop n) ∧ (s.chop n).content = s.content.take (s.content.length - n) :=
  chopLoop_shaped _ n h (Nat.le_refl _)

/-! ## Filling -/

/-- The last block has room for `n` bytes behind what is in use of it. -/
structure Room (full : Bool) (s : RingBuffer) (n : Nat) (bs : List Block) (b : Block) : Prop where
  basic : s.basicBlockSize < maxByteArraySize
  buffers : s.buffers = bs ++ [b]
  blocks : ∀ b ∈ s.buffers, b.size < maxByteArraySize ∧ b.alloc ≤ maxByteArraySize
  tailBuffer : s.tailBuffer = bs.length
  fits : s.tail + n ≤ b.size
  size : s.bufferSize = s.content.length
  empty : s.bufferSize = 0 → bs = [] ∧ s.head = 0 ∧ s.tail = 0
  head : s.head = 0 ∨ s.head < ((live s.tail s.buffers).headD []).length
  gaps : ∀ bytes : Bytes, bytes ≠ [] →
    List.IsChain (Neighbours full) (bs.map (·.bytes) ++ [bytes])

/-- Bytes go behind a block that has some. -/
theorem Shaped.last_ne_nil (h : Shaped full s) (hne : s.bufferSize ≠ 0) (hfull : full = true)
    {bytes : Bytes} (hlast : (live s.tail s.buffers).getLast? = some bytes) : bytes ≠ [] := by
  have hgaps := h.gaps
  rw [hfull] at hgaps
  obtain ⟨b, hb, -, hlt, htail, -⟩ | ⟨b, b', bs, hb, -, -, -⟩ := h.cases hne
  · rw [hb, live, List.getLast?_singleton, Option.some.injEq] at hlast
    rw [← hlast, Ne, ← List.length_eq_zero_iff, List.length_take]
    simp only [Block.size] at htail
    omega
  · obtain ⟨bs', c, hc⟩ := concat_of_ne_nil (show b' :: bs ≠ [] by simp)
    obtain ⟨bs'', c', hc'⟩ := concat_of_ne_nil (show b :: bs' ≠ [] by simp)
    have hb' : s.buffers = bs'' ++ [c'] ++ [c] := by
      rw [hb, hc, ← List.cons_append, hc']
    rw [hb', live_concat, List.map_append, List.map_singleton] at hgaps hlast
    rw [List.getLast?_concat, Option.some.injEq] at hlast
    have := (List.isChain_append.mp hgaps).2.2 c'.bytes (by simp) (c.bytes.take s.tail) (by simp)
    rw [Neighbours, if_pos rfl] at this
    exact hlast ▸ this.2

theorem pushBlock_room (h : Shaped full s) (hne : s.bufferSize ≠ 0) {n : Nat}
    (hn : n < maxByteArraySize) {b : Block} {bs : List Block} (hb : s.buffers = bs ++ [b]) :
    Room full (s.pushBlock n) n (bs ++ [b.resize s.tail]) (.ofSize (max s.basicBlockSize n)) ∧
      (s.pushBlock n).content = s.content := by
  have htail := h.tail_le hb
  have htake : (b.resize s.tail).bytes = b.bytes.take s.tail := by
    have := Block.take_resize b htail (Nat.le_refl _)
    rwa [List.take_of_length_le (Nat.le_of_eq (Block.size_resize b s.tail))] at this
  have hbuffers : (s.pushBlock n).buffers =
      bs ++ [b.resize s.tail] ++ [.ofSize (max s.basicBlockSize n)] := by
    simp [pushBlock, setBack, hb]
  have hlive : live 0 (s.pushBlock n).buffers = live s.tail s.buffers ++ [[]] := by
    rw [hbuffers, live_concat, hb, live_concat, List.map_append, List.map_singleton, htake,
      List.take_zero]
  have hc : (s.pushBlock n).content = s.content := by
    rw [content, show (s.pushBlock n).tail = 0 from rfl, hlive, List.flatten_append]
    simp [content, pushBlock, setBack, hb]
  have hblock := h.blocks b (by simp [hb])
  have hsize : max s.basicBlockSize n < maxByteArraySize := Nat.max_lt.mpr ⟨h.basic, hn⟩
  refine ⟨⟨?_, hbuffers, ?_, ?_, ?_, ?_, ?_, ?_, ?_⟩, hc⟩
  · simpa [pushBlock, setBack, hb] using h.basic
  · intro b₁ hb₁
    rw [hbuffers] at hb₁
    rcases List.mem_append.mp hb₁ with hb₁ | hb₁
    · rcases List.mem_append.mp hb₁ with hb₁ | hb₁
      · exact h.blocks b₁ (by rw [hb]; exact List.mem_append_left _ hb₁)
      · rw [List.mem_singleton.mp hb₁, Block.size_resize]
        have hlt := Nat.lt_of_le_of_lt htail hblock.1
        exact ⟨hlt, Block.alloc_resize hblock.2 hlt⟩
    · rw [List.mem_singleton.mp hb₁, Block.size_ofSize]
      exact ⟨hsize, hsize⟩
  · have := h.tailBuffer
    rw [hb] at this
    simp [pushBlock, setBack, hb, this]
  · rw [Block.size_ofSize, show (s.pushBlock n).tail = 0 from rfl]
    omega
  · rw [hc, ← h.size]
    simp [pushBlock, setBack, hb]
  · intro h0
    exact absurd (by simpa [pushBlock, setBack, hb] using h0) hne
  · have hhead := h.head
    rw [show (s.pushBlock n).tail = 0 from rfl, hlive,
      show (s.pushBlock n).head = s.head from by simp [pushBlock, setBack, hb]]
    cases hl : live s.tail s.buffers with
    | nil => exact absurd hl (by rw [hb, live_concat]; simp)
    | cons bytes l =>
      rw [hl] at hhead
      exact hhead
  · intro bytes hbytes
    have hgaps := h.gaps
    have hlast : (live s.tail s.buffers).getLast? = some (b.bytes.take s.tail) := by
      rw [hb, live_concat, List.getLast?_concat]
    have hprevious := h.last_ne_nil hne
    rw [hb, live_concat] at hgaps
    rw [List.map_append, List.map_singleton, htake]
    refine hgaps.append (.singleton _) fun x hx y hy => ?_
    obtain rfl : bytes = y := by simpa using hy
    obtain rfl : b.bytes.take s.tail = x := by simpa using hx
    rw [Neighbours]
    split
    · exact ⟨hprevious ‹_› hlast, hbytes⟩
    · exact .inr hbytes

/-- The last block may be of another size as long as what is in use of it stays. -/
theorem Shaped.room (h : Shaped full s) {n : Nat} {b : Block} {bs : List Block}
    (hb : s.buffers = bs ++ [b]) (b' : Block) (hsize : b'.size < maxByteArraySize)
    (halloc : b'.alloc ≤ maxByteArraySize) (htake : b'.bytes.take s.tail = b.bytes.take s.tail)
    (hfits : s.tail + n ≤ b'.size) :
    Room full { s with buffers := bs ++ [b'] } n bs b' ∧
      content { s with buffers := bs ++ [b'] } = s.content := by
  have hlive : live s.tail (bs ++ [b']) = live s.tail s.buffers := by
    rw [hb, live_concat, live_concat, htake]
  have hc : content { s with buffers := bs ++ [b'] } = s.content := by
    simp only [content, hlive]
  refine ⟨⟨h.basic, rfl, ?_, ?_, hfits, ?_, ?_, ?_, ?_⟩, hc⟩
  · intro b₁ hb₁
    rcases List.mem_append.mp hb₁ with hb₁ | hb₁
    · exact h.blocks b₁ (by rw [hb]; exact List.mem_append_left _ hb₁)
    · rw [List.mem_singleton.mp hb₁]
      exact ⟨hsize, halloc⟩
  · have := h.tailBuffer
    rw [hb] at this
    simpa using this
  · rw [hc]
    exact h.size
  · intro h0
    obtain ⟨hlen, hhead, htail⟩ := h.empty h0
    rw [hb, List.length_append, List.length_singleton] at hlen
    exact ⟨List.length_eq_zero_iff.mp (by omega), hhead, htail⟩
  · simp only [hlive]
    exact h.head
  · intro bytes hbytes
    have hgaps := h.gaps
    rw [hb, live_concat] at hgaps
    exact Neighbours.replace hbytes hgaps

theorem makeRoom_room (h : Shaped full s) {n : Nat} (hn : n < maxByteArraySize) :
    ∃ bs b, Room full (s.makeRoom n) n bs b ∧ (s.makeRoom n).content = s.content := by
  have hsize : max s.basicBlockSize n < maxByteArraySize := Nat.max_lt.mpr ⟨h.basic, hn⟩
  rw [makeRoom]
  by_cases h0 : s.bufferSize = 0
  · obtain ⟨hlen, hhead, htail⟩ := h.empty h0
    have hc := h.content_nil.mp h0
    rw [if_pos h0]
    rcases hb : s.buffers with - | ⟨b, bs⟩
    · rw [if_pos rfl]
      refine ⟨[], .ofSize (max s.basicBlockSize n), ⟨h.basic, rfl, ?_, ?_, ?_, ?_, ?_, ?_, ?_⟩, ?_⟩
      · intro b₁ hb₁
        rw [List.mem_singleton.mp hb₁, Block.size_ofSize]
        exact ⟨hsize, hsize⟩
      · have := h.tailBuffer
        rw [hb] at this
        exact this
      · simp only [htail, Block.size_ofSize]
        omega
      · simp [content, live, htail, hhead, h0]
      · exact fun _ => ⟨rfl, hhead, htail⟩
      · exact .inl hhead
      · exact fun _ _ => .singleton _
      · rw [hc]
        simp [content, live, htail, hhead]
    · obtain rfl : bs = [] := by
        rw [hb] at hlen
        exact List.length_eq_zero_iff.mp (by simpa using hlen)
      rw [if_neg (by simp)]
      have hset : s.setFront (·.resize (max s.basicBlockSize n)) =
          { s with buffers := [] ++ [b.resize (max s.basicBlockSize n)] } := by
        simp [setFront, hb]
      have hblock := h.blocks b (by simp [hb])
      obtain ⟨hr, hc'⟩ := h.room (n := n)
        (show s.buffers = [] ++ [b] from hb) (b.resize (max s.basicBlockSize n))
        (by rw [Block.size_resize]; exact hsize)
        (Block.alloc_resize hblock.2 hsize) (by rw [htail, List.take_zero, List.take_zero])
        (by rw [Block.size_resize, htail]; omega)
      rw [hset]
      exact ⟨[], _, hr, hc'⟩
  · rw [if_neg h0]
    obtain ⟨bs, b, hb⟩ : ∃ bs b, s.buffers = bs ++ [b] := by
      refine concat_of_ne_nil ?_
      intro hnil
      exact h0 (h.content_nil.mpr (by simp [content, hnil, live]))
    have htail := h.tail_le hb
    have hblock := h.blocks b (by simp [hb])
    simp only [hb, List.getLastD_concat]
    split
    · obtain ⟨hr, hc⟩ := pushBlock_room h h0 hn hb
      exact ⟨_, _, hr, hc⟩
    · rename_i hkeep
      -- the capacity of a block is below the limit
      have hlt : n + s.tail < maxByteArraySize := by
        rw [not_or, not_and_or, not_or] at hkeep
        have hcap : b.capacity < maxByteArraySize := by
          have : 0 < maxByteArraySize := by decide
          rw [Block.capacity]
          omega
        omega
      split
      · have hset : s.setBack (·.resize (max s.basicBlockSize (n + s.tail))) =
            { s with buffers := bs ++ [b.resize (max s.basicBlockSize (n + s.tail))] } := by
          simp [setBack, hb]
        have hmax := Nat.max_lt.mpr ⟨h.basic, hlt⟩
        obtain ⟨hr, hc⟩ := h.room (n := n) hb
          (b.resize (max s.basicBlockSize (n + s.tail)))
          (by rw [Block.size_resize]; exact hmax) (Block.alloc_resize hblock.2 hmax)
          (Block.take_resize b htail (by omega)) (by rw [Block.size_resize]; omega)
        rw [hset]
        exact ⟨bs, _, hr, hc⟩
      · obtain ⟨hr, hc⟩ := h.room (n := n) hb b hblock.1 hblock.2 rfl (by omega)
        rw [← hb] at hr hc
        exact ⟨bs, b, hr, hc⟩

/-- The space reserved is filled with `data` as far as it goes. -/
theorem Room.write {n : Nat} {bs : List Block} {b : Block} (h : Room full s n bs b)
    (hn : 0 < n) {data : Bytes} (hdata : data.length ≤ n) :
    ∃ rest, rest.length = n - data.length ∧
      Shaped full (writeReserved { s with bufferSize := s.bufferSize + n, tail := s.tail + n } n data) ∧
      content (writeReserved { s with bufferSize := s.bufferSize + n, tail := s.tail + n } n data) =
        s.content ++ data ++ rest := by
  have hfits := h.fits
  have hsize : (b.store s.tail data).size = b.size := by
    simp only [Block.store, Block.size, List.length_append, List.length_take, List.length_drop] at *
    omega
  have htake : (b.store s.tail data).bytes.take (s.tail + n) =
      b.bytes.take s.tail ++ (data ++ (b.bytes.drop (s.tail + data.length)).take
        (n - data.length)) := by
    have hlen : (b.bytes.take s.tail).length = s.tail := by
      rw [List.length_take, Nat.min_eq_left (by simp only [Block.size] at hfits; omega)]
    rw [Block.store, List.append_assoc, List.take_append, hlen,
      List.take_of_length_le (show (b.bytes.take s.tail).length ≤ s.tail + n by omega),
      show s.tail + n - s.tail = n from by omega, List.take_append,
      List.take_of_length_le hdata]
  have hrest : ((b.bytes.drop (s.tail + data.length)).take (n - data.length)).length =
      n - data.length := by
    rw [List.length_take, List.length_drop]
    simp only [Block.size] at hfits
    omega
  generalize hs' : writeReserved { s with bufferSize := s.bufferSize + n, tail := s.tail + n } n data
    = s'
  obtain rfl : s' = { s with
      buffers := bs ++ [b.store s.tail data]
      bufferSize := s.bufferSize + n
      tail := s.tail + n } := by
    rw [← hs']
    simp [writeReserved, setBack, h.buffers]
  generalize (b.bytes.drop (s.tail + data.length)).take (n - data.length) = rest at htake hrest
  have hhead : s.head ≤ ((bs.map (·.bytes)).flatten ++ b.bytes.take s.tail).length := by
    have hle := headD_le_flatten (live s.tail s.buffers)
    have := h.head
    rw [h.buffers, live_concat, List.flatten_append, List.flatten_singleton] at hle
    rw [h.buffers, live_concat] at this
    omega
  have hc : content { s with
      buffers := bs ++ [b.store s.tail data]
      bufferSize := s.bufferSize + n
      tail := s.tail + n } = s.content ++ data ++ rest := by
    simp only [content, h.buffers, live_concat, htake, List.flatten_append,
      List.flatten_singleton]
    rw [← List.append_assoc, List.drop_append_of_le_length hhead, List.append_assoc]
  refine ⟨rest, hrest, ⟨h.basic, ?_, ?_, ?_, ?_, ?_, ?_⟩, hc⟩
  · intro b₁ hb₁
    have hblock := h.blocks b (by rw [h.buffers]; simp)
    rcases List.mem_append.mp hb₁ with hb₁ | hb₁
    · exact h.blocks b₁ (by rw [h.buffers]; exact List.mem_append_left _ hb₁)
    · rw [List.mem_singleton.mp hb₁, hsize]
      exact hblock
  · simpa using h.tailBuffer
  · simp only [List.getLastD_concat, hsize]
    exact hfits
  · rw [hc, List.length_append, List.length_append, ← h.size, hrest]
    simp only
    omega
  · have := h.head
    simp only [h.buffers, live_concat] at this
    simp only [live_concat, htake]
    cases bs with
    | nil =>
      simp only [List.map_nil, List.nil_append, List.headD_cons, List.length_append] at this ⊢
      omega
    | cons b₁ bs => exact this
  · simp only [live_concat, htake]
    refine h.gaps _ fun hnil => ?_
    have := congrArg List.length hnil
    simp only [List.length_append, hrest, List.length_nil] at this
    omega

/-- Space for `n` bytes is reserved, as many as there are of `data` are written, and the
rest of the space is given back, as a device does that fills its buffer.
mirrors io/IoDevice.cpp:281-285 -/
def fill (s : RingBuffer) (n : Nat) (data : Bytes) : RingBuffer :=
  match s.reserve n with
  | none => s
  | some s => (s.writeReserved n (data.take n)).chop (n - data.length)

theorem fill_shaped (h : Shaped full s) (n : Nat) (data : Bytes) :
    Shaped full (s.fill n data) ∧ (0 < n → n < maxByteArraySize → data.length ≤ n →
      (s.fill n data).content = s.content ++ data) := by
  rw [fill, reserve]
  by_cases hn : n = 0 ∨ n ≥ maxByteArraySize
  · rw [if_pos hn]
    refine ⟨h, fun h0 hlt => ?_⟩
    omega
  · rw [if_neg hn]
    rw [not_or, not_le] at hn
    obtain ⟨bs, b, hroom, hc⟩ := makeRoom_room h hn.2
    obtain ⟨rest, hrest, hinv, hcontent⟩ :=
      hroom.write (by omega) (show (data.take n).length ≤ n from List.length_take_le _ _)
    have hchop := chop_shaped hinv (n - data.length)
    refine ⟨hchop.1, fun _ _ hle => hchop.2.trans ?_⟩
    rw [List.take_of_length_le hle] at hcontent hrest ⊢
    rw [hcontent, hc, List.length_append, hrest, Nat.add_sub_cancel, List.take_left]

/-! ## Buffers to which no array has been appended -/

structure Inv (s : RingBuffer) : Prop where
  basic : s.basicBlockSize < maxByteArraySize
  blocks : ∀ b ∈ s.buffers, b.size < maxByteArraySize ∧ b.alloc ≤ maxByteArraySize
  tailBuffer : s.tailBuffer = s.buffers.length - 1
  tail : s.tail ≤ (s.buffers.getLastD .empty).size
  size : s.bufferSize = s.content.length
  /-- Without bytes there is at most one block. -/
  empty : s.bufferSize = 0 → s.buffers.length ≤ 1 ∧ s.head = 0 ∧ s.tail = 0
  /-- With bytes every block has some. -/
  head : s.bufferSize ≠ 0 → s.head < ((live s.tail s.buffers).headD []).length
  nonempty : s.bufferSize ≠ 0 → ∀ bytes ∈ live s.tail s.buffers, bytes ≠ []

theorem Inv.shaped (h : Inv s) : Shaped true s := by
  refine ⟨h.basic, h.blocks, h.tailBuffer, h.tail, h.size, ?_, ?_⟩
  · by_cases h0 : s.bufferSize = 0
    · exact .inl (h.empty h0).2.1
    · exact .inr (h.head h0)
  · by_cases h0 : s.bufferSize = 0
    · have hlen := (h.empty h0).1
      rcases hb : s.buffers with - | ⟨b, - | ⟨b', bs⟩⟩
      · exact .nil
      · exact .singleton _
      · rw [hb] at hlen
        simp at hlen
    · refine List.Pairwise.isChain (List.pairwise_of_forall_mem_list fun a ha b hb => ?_)
      rw [Neighbours, if_pos rfl]
      exact ⟨h.nonempty h0 a ha, h.nonempty h0 b hb⟩

theorem Shaped.inv (h : Shaped true s) : Inv s := by
  have hnonempty : s.bufferSize ≠ 0 → ∀ bytes ∈ live s.tail s.buffers, bytes ≠ [] := by
    intro hne bytes hmem
    obtain ⟨l, r, hl⟩ := List.append_of_mem hmem
    cases r with
    | nil => exact h.last_ne_nil hne rfl (by rw [hl, List.getLast?_concat])
    | cons next r =>
      have := h.gaps
      rw [hl, List.isChain_append] at this
      have hpair := (List.isChain_cons_cons.mp this.2.1).1
      rw [Neighbours, if_pos rfl] at hpair
      exact hpair.1
  refine ⟨h.basic, h.blocks, h.tailBuffer, h.tail, h.size, h.empty, fun hne => ?_, hnonempty⟩
  rcases h.head with hz | hlt
  · have hflat : (live s.tail s.buffers).flatten ≠ [] := fun hflat =>
      hne (h.content_nil.mpr (by rw [content, hflat, List.drop_nil]))
    cases hl : live s.tail s.buffers with
    | nil => exact absurd (by rw [hl]; rfl) hflat
    | cons bytes l =>
      have := List.length_pos_iff.mpr (hnonempty hne bytes (by rw [hl]; exact List.mem_cons_self))
      rw [List.headD_cons]
      omega
  · exact hlt

theorem new_inv {growth : Nat} (h : growth < maxByteArraySize) : Inv (new growth) :=
  (new_shaped h).inv

theorem clear_inv (h : Inv s) : Inv s.clear ∧ s.clear.content = [] :=
  (clear_shaped h.shaped).imp Shaped.inv id

theorem free_inv (h : Inv s) (n : Nat) : Inv (s.free n) ∧ (s.free n).content = s.content.drop n :=
  (free_shaped h.shaped n).imp Shaped.inv id

theorem fill_inv (h : Inv s) (n : Nat) (data : Bytes) :
    Inv (s.fill n data) ∧ (0 < n → n < maxByteArraySize → data.length ≤ n →
      (s.fill n data).content = s.content ++ data) :=
  (fill_shaped h.shaped n data).imp Shaped.inv id

end RingBuffer

end Libpdk.Ds
