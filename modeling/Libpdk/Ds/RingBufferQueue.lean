import Libpdk.Ds.RingBufferInv

/-!
# A ring buffer is a queue of bytes

Reading, looking ahead and searching go from block to block; each is shown to be what
it is on the content. With that a ring buffer in a valid state is a `ByteQueue`.
-/
namespace Libpdk.Ds.RingBuffer

/-! ## Reading -/

variable {full : Bool} {s : RingBuffer}

theorem Shaped.nextDataBlockSize_zero (h : Shaped full s) (h0 : s.bufferSize = 0) :
    s.nextDataBlockSize = 0 := by
  obtain ⟨hlen, hhead, htail⟩ := h.empty h0
  rw [nextDataBlockSize, if_pos (by rw [h.tailBuffer]; omega), hhead, htail]

/-- What the first block has is the beginning of the content. -/
theorem Shaped.front (h : Shaped full s) (hne : s.bufferSize ≠ 0) :
    s.nextDataBlockSize ≤ s.content.length ∧ s.nextDataBlockSize < maxByteArraySize ∧
      ∀ m ≤ s.nextDataBlockSize, (s.front.bytes.drop s.head).take m = s.content.take m := by
  obtain ⟨b, hb, hlast, hlt, htail, hcontent⟩ | ⟨b, b', bs, hb, hlast, hlt, hcontent⟩ := h.cases hne
  · have hfront : s.front = b := by rw [RingBuffer.front, hb]; rfl
    have hnext : s.nextDataBlockSize = s.tail - s.head := by
      rw [nextDataBlockSize, if_pos hlast]
    have hsize := (h.blocks b (by rw [hb]; simp)).1
    rw [hnext, hcontent, hfront, List.length_drop, List.length_take, List.drop_take]
    simp only [Block.size] at htail hsize
    refine ⟨by omega, by omega, fun m hm => ?_⟩
    rw [List.take_take, Nat.min_eq_left hm]
  · have hfront : s.front = b := by rw [RingBuffer.front, hb]; rfl
    have hnext : s.nextDataBlockSize = b.size - s.head := by
      rw [nextDataBlockSize, if_neg (by omega), hfront]
    have hsize := (h.blocks b (by rw [hb]; simp)).1
    have hlen : (b.bytes.drop s.head).length = b.size - s.head := List.length_drop
    rw [hnext, hcontent, hfront, List.length_append, hlen]
    refine ⟨by omega, by omega, fun m hm => ?_⟩
    rw [List.take_append_of_le_length (by omega)]

theorem Inv.front_pos (h : Inv s) (hne : s.bufferSize ≠ 0) : 0 < s.nextDataBlockSize := by
  have hhead := h.head hne
  obtain ⟨b, hb, hlast, hlt, -, -⟩ | ⟨b, b', bs, hb, hlast, -, -⟩ := h.shaped.cases hne
  · rw [nextDataBlockSize, if_pos hlast]
    omega
  · rw [hb, live, List.headD_cons] at hhead
    rw [nextDataBlockSize, if_neg (by omega), RingBuffer.front, hb, List.headD_cons, Block.size]
    omega

theorem readLoop_inv : ∀ (rounds : Nat) {s : RingBuffer} {n : Nat}, Inv s →
    n ≤ s.content.length → n ≤ rounds →
    (readLoop rounds s n).1 = s.content.take n ∧ Inv (readLoop rounds s n).2 ∧
      (readLoop rounds s n).2.content = s.content.drop n
  | 0, s, n, h, _, hr => by
    obtain rfl : n = 0 := by omega
    exact ⟨rfl, h, rfl⟩
  | rounds + 1, s, n, h, hn, hr => by
    rw [readLoop]
    by_cases hn0 : n = 0
    · rw [if_pos hn0, hn0]
      exact ⟨rfl, h, rfl⟩
    rw [if_neg hn0]
    have hne : s.bufferSize ≠ 0 := by
      rw [h.size]
      omega
    have hpos := h.front_pos hne
    obtain ⟨-, -, hfront⟩ := h.shaped.front hne
    obtain ⟨hi, hc⟩ := free_inv h (min n s.nextDataBlockSize)
    obtain ⟨h1, h2, h3⟩ := readLoop_inv rounds hi (n := n - min n s.nextDataBlockSize)
      (by rw [hc, List.length_drop]; omega) (by omega)
    refine ⟨?_, h2, ?_⟩
    · simp only [h1, hc]
      rw [hfront _ (Nat.min_le_right _ _), ← List.take_add,
        show min n s.nextDataBlockSize + (n - min n s.nextDataBlockSize) = n from by omega]
    · simp only [h3, hc]
      rw [List.drop_drop,
        show min n s.nextDataBlockSize + (n - min n s.nextDataBlockSize) = n from by omega]

theorem read_inv {s : RingBuffer} (h : Inv s) (n : Nat) :
    (s.read n).1 = s.content.take n ∧ Inv (s.read n).2 ∧
      (s.read n).2.content = s.content.drop n := by
  obtain ⟨h1, h2, h3⟩ := readLoop_inv (min s.bufferSize n) h (n := min s.bufferSize n)
    (by rw [h.size]; exact Nat.min_le_left _ _) (Nat.le_refl _)
  rw [h.size] at h1 h2 h3
  rw [read, h.size]
  refine ⟨?_, h2, ?_⟩
  · rw [h1, Nat.min_comm]
    exact List.take_eq_take_min.symm
  · rw [h3]
    rcases Nat.le_total n s.content.length with hle | hle
    · rw [Nat.min_eq_right hle]
    · rw [Nat.min_eq_left hle, List.drop_length, List.drop_of_length_le hle]

theorem readBlock_shaped (h : Shaped full s) :
    s.readBlock.1 = s.content.take s.nextDataBlockSize ∧ Shaped full s.readBlock.2 ∧
      s.readBlock.2.content = s.content.drop s.nextDataBlockSize := by
  rw [readBlock]
  by_cases h0 : s.bufferSize = 0
  · rw [if_pos h0, h.content_nil.mp h0]
    exact ⟨by simp, h, by simp⟩
  rw [if_neg h0]
  obtain ⟨b, hb, hlast, hlt, htail, hcontent⟩ | ⟨b, b', bs, hb, hlast, hlt, hcontent⟩ := h.cases h0
  · have hnext : s.nextDataBlockSize = s.content.length := by
      rw [nextDataBlockSize, if_pos hlast, hcontent, List.length_drop, List.length_take]
      simp only [Block.size] at htail
      omega
    have hdata : (s.front.bytes.take s.tail).drop s.head = s.content := by
      rw [hcontent, RingBuffer.front, hb]
      rfl
    simp only [hlast, if_true, hdata, hnext, List.take_length, List.drop_length]
    refine ⟨trivial, ⟨h.basic, ?_, ?_, Nat.zero_le _, ?_, .inl rfl, ?_⟩, ?_⟩
    · simp [hb]
    · simp [hb]
    · simp [content, hb, live, h.size]
    · simp [hb, live]
    · simp [content, hb, live]
  · have hlast0 : s.tailBuffer ≠ 0 := by omega
    have hfront' : s.front = b := by rw [RingBuffer.front, hb]; rfl
    have hlen : (b.bytes.drop s.head).length = b.size - s.head := List.length_drop
    have hnext : s.nextDataBlockSize = b.size - s.head := by
      rw [nextDataBlockSize, if_neg hlast0, hfront']
    obtain ⟨hi, hc⟩ := popFront_shaped h hb
    simp only [hlast0, if_false, hfront', hlen, hnext, hb, List.tail_cons]
    refine ⟨?_, hi, hc⟩
    rw [hcontent, ← hlen, List.take_left]

theorem readBlock_inv (h : Inv s) :
    s.readBlock.1 = s.content.take s.nextDataBlockSize ∧ Inv s.readBlock.2 ∧
      s.readBlock.2.content = s.content.drop s.nextDataBlockSize :=
  (readBlock_shaped h.shaped).imp_right fun hr => hr.imp_left Shaped.inv

/-! ## Going through the blocks -/

/-- The blocks from the `i`-th on. -/
def From (s : RingBuffer) (i : Nat) (bs : List Block) : Prop :=
  bs ≠ [] → i + bs.length = s.tailBuffer + 1 ∧ s.tail ≤ (bs.getLastD .empty).size

theorem Shaped.from (h : Shaped full s) : From s 0 s.buffers := by
  intro hne
  have := h.tailBuffer
  have := List.length_pos_iff.mpr hne
  exact ⟨by omega, h.tail⟩

theorem From.tail {s : RingBuffer} {i : Nat} {b : Block} {bs : List Block}
    (h : From s i (b :: bs)) : From s (i + 1) bs := by
  intro hne
  obtain ⟨hlen, htail⟩ := h (by simp)
  rw [List.length_cons] at hlen
  refine ⟨by omega, ?_⟩
  obtain ⟨bs', b', rfl⟩ := concat_of_ne_nil hne
  rw [← List.cons_append, List.getLastD_concat] at htail
  rwa [List.getLastD_concat]

theorem From.live_cons {s : RingBuffer} {i : Nat} {b : Block} {bs : List Block}
    (h : From s i (b :: bs)) :
    live s.tail (b :: bs) = b.bytes.take (s.blockLength i b) :: live s.tail bs ∧
      s.blockLength i b ≤ b.bytes.length := by
  obtain ⟨hlen, htail⟩ := h (by simp)
  rw [blockLength]
  cases bs with
  | nil =>
    have hi : i = s.tailBuffer := by simpa using hlen
    rw [if_pos hi]
    exact ⟨rfl, htail⟩
  | cons b' bs =>
    simp only [List.length_cons] at hlen
    rw [if_neg (by omega), live, Block.size, List.take_length]
    exact ⟨rfl, Nat.le_refl _⟩

theorem drop_beyond {l l' : Bytes} {n : Nat} (h : l.length ≤ n) :
    (l ++ l').drop n = l'.drop (n - l.length) := by
  rw [List.drop_append, List.drop_of_length_le h, List.nil_append]

theorem peekLoop_eq {s : RingBuffer} : ∀ (bs : List Block) {i : Nat} (pos left : Nat),
    From s i bs → s.peekLoop bs i pos left = ((live s.tail bs).flatten.drop pos).take left
  | [], _, _, _, _ => by simp [peekLoop, live]
  | b :: bs, i, pos, left, h => by
    obtain ⟨hlive, hle⟩ := h.live_cons
    have hlen : (b.bytes.take (s.blockLength i b)).length = s.blockLength i b := by
      rw [List.length_take, Nat.min_eq_left hle]
    rw [peekLoop, hlive, List.flatten_cons]
    by_cases h0 : left = 0
    · rw [if_pos h0, h0, List.take_zero]
    rw [if_neg h0]
    by_cases hpos : pos < s.blockLength i b
    · simp only [if_pos hpos]
      rw [peekLoop_eq bs _ _ h.tail, List.drop_zero,
        List.drop_append_of_le_length (by omega), List.take_append, List.drop_take,
        List.take_take, List.length_take, List.length_drop, Nat.min_comm left,
        show min (s.blockLength i b - pos) (b.bytes.length - pos) = s.blockLength i b - pos from by
          omega,
        show left - min (s.blockLength i b - pos) left = left - (s.blockLength i b - pos) from by
          omega]
    · rw [if_neg hpos, peekLoop_eq bs _ _ h.tail, drop_beyond (by omega), hlen]

theorem peek_shaped (h : Shaped full s) (n pos : Nat) :
    s.peek n pos = (s.content.drop pos).take n := by
  rw [peek, peekLoop_eq _ _ _ h.from, content, List.drop_drop, Nat.add_comm]

theorem idxOf?_append (c : UInt8) (l l' : Bytes) :
    (l ++ l').idxOf? c = (l.idxOf? c).or ((l'.idxOf? c).map (· + l.length)) :=
  List.findIdx?_append

theorem indexOfLoop_eq {s : RingBuffer} {c : UInt8} {n : Nat} (hn0 : 0 < n) (pos : Nat) :
    ∀ (bs : List Block) {i : Nat} {index : Int}, From s i bs → index < n →
    s.indexOfLoop c n pos bs i index =
      ((((live s.tail bs).flatten.drop (-index).toNat).take (n - index.toNat)).idxOf? c).map
        (· + (index.toNat + pos))
  | [], _, _, _, _ => by simp [indexOfLoop, live]
  | b :: bs, i, index, h, hn => by
    obtain ⟨hlive, hle⟩ := h.live_cons
    rw [indexOfLoop, hlive, List.flatten_cons]
    generalize s.blockLength i b = len at hle
    have hlen : (b.bytes.take len).length = len := by
      rw [List.length_take, Nat.min_eq_left hle]
    by_cases hbefore : index + len ≤ 0
    · -- the block is before `pos`
      simp only
      rw [if_neg (by omega), indexOfLoop_eq hn0 pos bs h.tail (by omega), drop_beyond (by omega), hlen,
        show min (index + len : Int) n = index + len from by omega,
        show (-(index + len)).toNat = (-index).toNat - len from by omega,
        show (index + len).toNat = 0 from by omega, show index.toNat = 0 from by omega]
    · simp only
      rw [if_pos (by omega), List.drop_append_of_le_length (by omega), List.take_append,
        idxOf?_append]
      generalize ha : (-index).toNat = a
      have htaken : ((b.bytes.take len).drop a).length = len - a := by
        rw [List.length_drop, hlen]
      have hsearched : (b.bytes.drop a).take (min (index + len) n - max index 0 : Int).toNat =
          ((b.bytes.take len).drop a).take (n - index.toNat) := by
        rw [List.drop_take, List.take_take]
        congr 1
        omega
      simp only [hsearched]
      by_cases hend : index + len < n
      · -- all of the block is searched
        have hall : ((b.bytes.take len).drop a).take (n - index.toNat) =
            (b.bytes.take len).drop a := List.take_of_length_le (by omega)
        cases hf : (((b.bytes.take len).drop a).take (n - index.toNat)).idxOf? c with
        | some k => simp [Nat.add_assoc]
        | none =>
          simp only [Option.none_or]
          rw [if_neg (by omega), indexOfLoop_eq hn0 pos bs h.tail (by omega), hall, htaken,
            show min (index + len : Int) n = index + len from by omega,
            show (-(index + len)).toNat = 0 from by omega, List.drop_zero,
            show n - index.toNat - (len - a) = n - (index + len).toNat from by omega,
            Option.map_map]
          congr 1
          funext k
          simp only [Function.comp]
          omega
      · rw [htaken, show n - index.toNat - (len - a) = 0 from by omega, List.take_zero]
        cases hf : (((b.bytes.take len).drop a).take (n - index.toNat)).idxOf? c with
        | some k => simp [Nat.add_assoc]
        | none => simp [show min (index + len : Int) n = n from by omega]

theorem indexOf_shaped (h : Shaped full s) (c : UInt8) (n pos : Nat) :
    s.indexOf c n pos = (((s.content.drop pos).take n).idxOf? c).map (· + pos) := by
  rw [indexOf]
  by_cases hn : n = 0
  · rw [if_pos hn, hn, List.take_zero]
    rfl
  · rw [if_neg hn, indexOfLoop_eq (by omega) pos _ h.from (by omega), content, List.drop_drop,
      show (-(-((pos : Int) + s.head))).toNat = s.head + pos from by omega,
      show (-((pos : Int) + s.head)).toNat = 0 from by omega, Nat.sub_zero, Nat.zero_add]

/-- A ring buffer in a valid state. -/
abbrev Valid := { s : RingBuffer // Inv s }

/-- The basic block size is one of which a block can be allocated. -/
instance : ByteQueue Valid where
  content s := s.1.content
  new n := ⟨RingBuffer.new (min n (maxByteArraySize - 1)),
    new_inv (by have : 0 < maxByteArraySize := by decide
                omega)⟩
  size s := s.1.bufferSize
  clear s := ⟨s.1.clear, (clear_inv s.2).1⟩
  free s n := ⟨s.1.free n, (free_inv s.2 n).1⟩
  read s n := ((s.1.read n).1, ⟨(s.1.read n).2, (read_inv s.2 n).2.1⟩)
  peek s n pos := s.1.peek n pos
  indexOf s c n pos := s.1.indexOf c n pos
  nextDataBlockSize s := s.1.nextDataBlockSize
  readBlock s := (s.1.readBlock.1, ⟨s.1.readBlock.2, (readBlock_inv s.2).2.1⟩)
  fill s n data := ⟨s.1.fill n data, (fill_inv s.2 n data).1⟩
  content_new _ := rfl
  size_eq s := s.2.size
  content_clear s := (clear_inv s.2).2
  content_free s n _ := (free_inv s.2 n).2
  read_fst s n := (read_inv s.2 n).1
  content_read s n := (read_inv s.2 n).2.2
  peek_eq s n pos := peek_shaped s.2.shaped n pos
  indexOf_eq s c n pos := indexOf_shaped s.2.shaped c n pos
  nextDataBlockSize_le s := by
    by_cases h0 : s.1.bufferSize = 0
    · rw [s.2.shaped.nextDataBlockSize_zero h0]
      exact Nat.zero_le _
    · exact (s.2.shaped.front h0).1
  nextDataBlockSize_lt s := by
    by_cases h0 : s.1.bufferSize = 0
    · rw [s.2.shaped.nextDataBlockSize_zero h0]
      decide
    · exact (s.2.shaped.front h0).2.1
  readBlock_fst s := (readBlock_inv s.2).1
  content_readBlock s := (readBlock_inv s.2).2.2
  content_fill s n data h0 hlt hle := (fill_inv s.2 n data).2 h0 hlt hle

end Libpdk.Ds.RingBuffer
