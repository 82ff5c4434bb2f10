import Libpdk.Ds.RingBufferQueue

/-!
# Runs of a ring buffer

What the buffer does with arrays that are appended as blocks, empty ones too, and every call of
a run on the queue of its bytes. An empty block that is not the last one is where `read` stops:
its rounds take away nothing, and do not end (`read_ends_iff`).
-/
namespace Libpdk.Ds.RingBuffer

variable {full : Bool} {s s' : RingBuffer}

/-- `none`: the bytes would be written to address 0.
mirrors ds/RingBuffer.cpp:286-296 -/
def append (s : RingBuffer) (data : Bytes) : Option RingBuffer :=
  if data = [] then some s
  else do
    let s ← s.reserve data.length
    some (s.writeReserved data.length data)

/-- mirrors ds/RingBuffer.cpp:298-313 -/
def appendArray (s : RingBuffer) (qba : Block) : RingBuffer :=
  if s.tail = 0 then
    { s with
      buffers := if s.buffers = [] then [qba] else (s.setBack fun _ => qba).buffers
      tail := qba.size
      bufferSize := s.bufferSize + qba.size }
  else
    { s with
      buffers := (s.setBack (·.resize s.tail)).buffers ++ [qba]
      tailBuffer := s.tailBuffer + 1
      tail := qba.size
      bufferSize := s.bufferSize + qba.size }

/-- The loop of `read`; `none`: it has not ended after so many rounds.
mirrors ds/RingBuffer.cpp:232-241 -/
def readRounds : Nat → RingBuffer → Nat → Option (Bytes × RingBuffer)
  | _, s, 0 => some ([], s)
  | 0, _, _ + 1 => none
  | rounds + 1, s, n + 1 => do
    let fromThisBlock := min (n + 1) s.nextDataBlockSize
    let (rest, s') ← readRounds rounds (s.free fromThisBlock) (n + 1 - fromThisBlock)
    some ((s.front.bytes.drop s.head).take fromThisBlock ++ rest, s')

/-- How many bytes `readLine` reads; `none`: there is no place for any.
mirrors ds/RingBuffer.cpp:317-321 -/
def lineLength (s : RingBuffer) (maxLength : Nat) : Option Nat :=
  if maxLength ≤ 1 then none
  else match s.indexOf 10 (maxLength - 1) 0 with
    | some i => some (i + 1)
    | none => some (maxLength - 1)

/-! ## Appending an array -/

theorem appendArray_shaped (h : Shaped false s) {qba : Block} (hsize : qba.size < maxByteArraySize)
    (halloc : qba.alloc ≤ maxByteArraySize) :
    Shaped false (s.appendArray qba) ∧ (s.appendArray qba).content = s.content ++ qba.bytes := by
  have hlast : ∀ bs : List Block, live qba.size (bs ++ [qba]) = bs.map (·.bytes) ++ [qba.bytes] :=
    fun bs => by rw [live_concat, Block.size, List.take_length]
  rw [appendArray]
  by_cases htail : s.tail = 0
  · rw [if_pos htail]
    by_cases hb : s.buffers = []
    · have hhead : s.head = 0 := by
        rcases h.head with hz | hlt
        · exact hz
        · rw [hb] at hlt
          exact absurd hlt (by simp [live])
      have hlen := h.tailBuffer
      have hzero : s.bufferSize = 0 := h.content_nil.mpr (by simp [content, hb, live])
      rw [hb] at hlen
      simp only [hb, if_true]
      refine ⟨⟨h.basic, ?_, hlen, Nat.le_refl _, ?_, .inl hhead, .singleton _⟩, ?_⟩
      · intro b hb'
        rw [List.mem_singleton.mp hb']
        exact ⟨hsize, halloc⟩
      · simp [content, live, hhead, hzero, Block.size]
      · simp [content, live, hhead, hb, Block.size]
    · -- the last block has nothing in use
      obtain ⟨bs, b, hb'⟩ := concat_of_ne_nil hb
      have hlive : live s.tail s.buffers = bs.map (·.bytes) ++ [[]] := by
        rw [hb', live_concat, htail, List.take_zero]
      have hset : (s.setBack fun _ => qba).buffers = bs ++ [qba] := by simp [setBack, hb']
      have hhead := h.head
      have hgaps := h.gaps
      have hlen := h.tailBuffer
      rw [hlive] at hhead hgaps
      rw [hb', List.length_append, List.length_singleton] at hlen
      have hflat : s.head ≤ (bs.map (·.bytes)).flatten.length := by
        cases bs with
        | nil => simpa using hhead
        | cons b₁ bs =>
          simp only [List.map_cons, List.cons_append, List.headD_cons] at hhead
          rw [List.map_cons, List.flatten_cons, List.length_append]
          omega
      have hc : content { s with
          buffers := bs ++ [qba]
          tail := qba.size
          bufferSize := s.bufferSize + qba.size } = s.content ++ qba.bytes := by
        simp only [content, hlast, hlive, List.flatten_append, List.flatten_singleton,
          List.append_nil]
        rw [List.drop_append_of_le_length hflat]
      rw [if_neg hb, hset]
      refine ⟨⟨h.basic, ?_, ?_, ?_, ?_, ?_, ?_⟩, hc⟩
      · intro b₁ hb₁
        rcases List.mem_append.mp hb₁ with hb₁ | hb₁
        · exact h.blocks b₁ (by rw [hb']; exact List.mem_append_left _ hb₁)
        · rw [List.mem_singleton.mp hb₁]
          exact ⟨hsize, halloc⟩
      · rw [List.length_append, List.length_singleton]
        exact hlen
      · simp
      · rw [hc, List.length_append, ← h.size]
        rfl
      · simp only [hlast]
        cases bs with
        | nil => exact .inl (by simpa using hhead)
        | cons b₁ bs => exact hhead
      · simp only [hlast]
        rw [List.isChain_append] at hgaps ⊢
        refine ⟨hgaps.1, .singleton _, fun x hx y _ => ?_⟩
        have := (hgaps.2.2 x hx [] (by simp)).not_both
        exact .inl (this.resolve_right (absurd rfl))
  · rw [if_neg htail]
    have hb : s.buffers ≠ [] := by
      intro hb
      have := h.tail
      rw [hb] at this
      exact htail (Nat.le_zero.mp this)
    obtain ⟨bs, b, hb'⟩ := concat_of_ne_nil hb
    have hle := h.tail_le hb'
    have htake : (b.resize s.tail).bytes = b.bytes.take s.tail := by
      have := Block.take_resize b hle (Nat.le_refl _)
      rwa [List.take_of_length_le (Nat.le_of_eq (Block.size_resize b s.tail))] at this
    have hset : (s.setBack (·.resize s.tail)).buffers = bs ++ [b.resize s.tail] := by
      simp [setBack, hb']
    have hlive : live qba.size (bs ++ [b.resize s.tail] ++ [qba]) =
        live s.tail s.buffers ++ [qba.bytes] := by
      rw [hlast, hb', live_concat, List.map_append, List.map_singleton, htake]
    have hhead := h.head
    have hflat := headD_le_flatten (live s.tail s.buffers)
    have hc : content { s with
        buffers := bs ++ [b.resize s.tail] ++ [qba]
        tailBuffer := s.tailBuffer + 1
        tail := qba.size
        bufferSize := s.bufferSize + qba.size } = s.content ++ qba.bytes := by
      simp only [content, hlive, List.flatten_append, List.flatten_singleton]
      rw [List.drop_append_of_le_length (by omega)]
    rw [hset]
    refine ⟨⟨h.basic, ?_, ?_, ?_, ?_, ?_, ?_⟩, hc⟩
    · intro b₁ hb₁
      rcases List.mem_append.mp hb₁ with hb₁ | hb₁
      · rcases List.mem_append.mp hb₁ with hb₁ | hb₁
        · exact h.blocks b₁ (by rw [hb']; exact List.mem_append_left _ hb₁)
        · have hblock := h.blocks b (by rw [hb']; simp)
          have hlt := Nat.lt_of_le_of_lt hle hblock.1
          rw [List.mem_singleton.mp hb₁, Block.size_resize]
          exact ⟨hlt, Block.alloc_resize hblock.2 hlt⟩
      · rw [List.mem_singleton.mp hb₁]
        exact ⟨hsize, halloc⟩
    · have := h.tailBuffer
      rw [hb', List.length_append, List.length_singleton] at this
      simp only [List.length_append, List.length_singleton]
      omega
    · simp
    · rw [hc, List.length_append, ← h.size]
      rfl
    · simp only [hlive]
      cases hl : live s.tail s.buffers with
      | nil => exact absurd hl (by rw [hb', live_concat]; simp)
      | cons bytes l =>
        rw [hl] at hhead
        exact hhead
    · simp only [hlive]
      refine h.gaps.append (.singleton _) fun x hx _ _ => .inl fun hnil => ?_
      rw [hb', live_concat, List.getLast?_concat, Option.mem_some_iff] at hx
      have := congrArg List.length (hx.trans hnil)
      rw [List.length_take, List.length_nil] at this
      simp only [Block.size] at hle
      omega

theorem append_shaped (h : Shaped full s) {data : Bytes} (hlen : data.length < maxByteArraySize) :
    ∃ s', s.append data = some s' ∧ Shaped full s' ∧ s'.content = s.content ++ data := by
  rw [append]
  by_cases hdata : data = []
  · exact ⟨s, if_pos hdata, h, by rw [hdata, List.append_nil]⟩
  · have hpos := List.length_pos_iff.mpr hdata
    obtain ⟨bs, b, hroom, hc⟩ := makeRoom_room h hlen
    obtain ⟨rest, hrest, hshaped, hcontent⟩ := hroom.write hpos (Nat.le_refl data.length)
    obtain rfl : rest = [] := List.length_eq_zero_iff.mp (by omega)
    rw [if_neg hdata, reserve, if_neg (by omega)]
    exact ⟨_, rfl, hshaped, by rw [hcontent, hc, List.append_nil]⟩

/-! ## Rounds of reading -/

/-- The bytes of each block that have not been read. -/
def unread (s : RingBuffer) : List Bytes :=
  match live s.tail s.buffers with
  | [] => []
  | bytes :: l => bytes.drop s.head :: l

/-- No block is empty that `n` bytes are read through, but for the last one. -/
def Passes : List Bytes → Nat → Prop
  | bytes :: bytes' :: l, n => n = 0 ∨ (bytes ≠ [] ∧ Passes (bytes' :: l) (n - bytes.length))
  | _, _ => True

theorem unread_popFront {b b' : Block} {bs : List Block} :
    unread { s with
      bufferSize := s.bufferSize - (b.size - s.head)
      buffers := b' :: bs
      tailBuffer := s.tailBuffer - 1
      head := 0 } = live s.tail (b' :: bs) := by
  simp only [unread, List.drop_zero]
  cases bs <;> rfl

/-- All of the first block is freed. -/
theorem free_front (h : Shaped full s) {b b' : Block} {bs : List Block}
    (hb : s.buffers = b :: b' :: bs) (hpos : b.size - s.head ≠ 0) :
    s.free (b.size - s.head) = { s with
      bufferSize := s.bufferSize - (b.size - s.head)
      buffers := b' :: bs
      tailBuffer := s.tailBuffer - 1
      head := 0 } := by
  have hfront : s.front = b := by rw [RingBuffer.front, hb]; rfl
  have hlast := (h.content_cons hb).1
  rw [free, hb, List.length_cons, freeLoop, if_neg hpos, hfront,
    if_neg (by simp only [hlast]; omega), Nat.sub_self, hb, List.tail_cons, List.length_cons]
  exact if_pos rfl

theorem free_zero (s : RingBuffer) : s.free 0 = s := by
  rw [free]
  cases s.buffers.length with
  | zero => rfl
  | succ rounds => exact if_pos rfl

/-- Where several blocks are left, the first one's bytes are read in one round. -/
theorem unread_cons (h : Shaped full s) {b b' : Block} {bs : List Block}
    (hb : s.buffers = b :: b' :: bs) : s.unread = b.bytes.drop s.head :: live s.tail (b' :: bs) ∧
      (b.bytes.drop s.head).length = b.size - s.head ∧ s.nextDataBlockSize = b.size - s.head := by
  have hlast := (h.content_cons hb).1
  refine ⟨?_, List.length_drop, ?_⟩
  · rw [unread, hb, live]
  · rw [nextDataBlockSize, if_neg (by omega), RingBuffer.front, hb]
    rfl

theorem live_cons (tail : Nat) (b : Block) (bs : List Block) :
    ∃ bytes l, live tail (b :: bs) = bytes :: l := by
  cases bs with
  | nil => exact ⟨_, _, rfl⟩
  | cons b' bs => exact ⟨_, _, rfl⟩

theorem readRounds_step (h : Shaped full s) (hne : s.bufferSize ≠ 0) {n : Nat}
    {rounds : Nat} {rest : Bytes}
    (hrest : readRounds rounds (s.free (min (n + 1) s.nextDataBlockSize))
      (n + 1 - min (n + 1) s.nextDataBlockSize) = some (rest, s')) :
    readRounds (rounds + 1) s (n + 1) =
      some (s.content.take (min (n + 1) s.nextDataBlockSize) ++ rest, s') := by
  obtain ⟨-, -, hfront⟩ := h.front hne
  rw [readRounds, hrest]
  simp only [bind, Option.bind_some, hfront _ (Nat.min_le_right _ _)]

/-- The rounds end where no empty block is in the way, with the first bytes. -/
theorem readRounds_ends : ∀ (n : Nat) {s : RingBuffer}, Shaped full s → n ≤ s.content.length →
    Passes s.unread n → ∃ rounds s', readRounds rounds s n = some (s.content.take n, s') ∧
      Shaped full s' ∧ s'.content = s.content.drop n := by
  intro n
  induction n using Nat.strong_induction_on with
  | _ n ih =>
    intro s h hn hpasses
    cases n with
    | zero => exact ⟨0, s, rfl, h, rfl⟩
    | succ n =>
      have hne : s.bufferSize ≠ 0 := by
        rw [h.size]
        omega
      obtain ⟨hle, -, -⟩ := h.front hne
      obtain ⟨hfree, hc⟩ := free_shaped h (min (n + 1) s.nextDataBlockSize)
      by_cases hlast : n + 1 ≤ s.nextDataBlockSize
      · -- one round
        rw [Nat.min_eq_left hlast] at hfree hc
        refine ⟨1, s.free (n + 1), ?_, hfree, hc⟩
        have hdone : readRounds 0 (s.free (min (n + 1) s.nextDataBlockSize))
            (n + 1 - min (n + 1) s.nextDataBlockSize) = some ([], s.free (n + 1)) := by
          rw [Nat.min_eq_left hlast, Nat.sub_self]
          rfl
        have hround := readRounds_step h hne hdone
        rwa [Nat.min_eq_left hlast, List.append_nil] at hround
      · have hmin : min (n + 1) s.nextDataBlockSize = s.nextDataBlockSize := by omega
        obtain ⟨b, hb, htb, hlt, htail, hcontent⟩ | ⟨b, b', bs, hb, htb, hlt, hcontent⟩ :=
          h.cases hne
        · rw [hcontent, List.length_drop, List.length_take] at hn
          rw [nextDataBlockSize, if_pos htb] at hlast
          omega
        · obtain ⟨hunread, hlen, hnext⟩ := unread_cons h hb
          obtain ⟨bytes, l, hl⟩ := live_cons s.tail b' bs
          rw [hunread, hl] at hpasses
          obtain hz | ⟨hbytes, hpasses⟩ := hpasses
          · exact absurd hz (Nat.succ_ne_zero n)
          have hpos : b.size - s.head ≠ 0 := by
            rw [← hlen]
            exact fun hz => hbytes (List.length_eq_zero_iff.mp hz)
          rw [hmin, hnext, free_front h hb hpos] at hfree hc
          rw [hlen, ← hl, ← unread_popFront] at hpasses
          obtain ⟨rounds, s', hrounds, hs', hc'⟩ := ih (n + 1 - (b.size - s.head)) (by omega)
            hfree (by rw [hc, List.length_drop]; omega) hpasses
          refine ⟨rounds + 1, s', ?_, hs', ?_⟩
          · rw [readRounds_step h hne (by rw [hmin, hnext, free_front h hb hpos]; exact hrounds),
              hmin, hnext, hc, ← List.take_add,
              show b.size - s.head + (n + 1 - (b.size - s.head)) = n + 1 by omega]
          · rw [hc', hc, List.drop_drop,
              show b.size - s.head + (n + 1 - (b.size - s.head)) = n + 1 by omega]

/-- A round that takes nothing away is followed by another one. -/
theorem readRounds_stuck (h : s.nextDataBlockSize = 0) (n : Nat) :
    ∀ rounds, readRounds rounds s (n + 1) = none
  | 0 => rfl
  | rounds + 1 => by
    rw [readRounds, h, Nat.min_zero, free_zero, Nat.sub_zero, readRounds_stuck h n rounds]
    rfl

theorem readRounds_mono : ∀ {rounds rounds' : Nat} {s : RingBuffer} {n : Nat}
    {r : Bytes × RingBuffer}, readRounds rounds s n = some r → rounds ≤ rounds' →
    readRounds rounds' s n = some r
  | _, rounds', s, 0, r, h, _ => by
    rw [readRounds] at h ⊢
    exact h
  | 0, _, _, _ + 1, _, h, _ => by cases h
  | rounds + 1, 0, _, _ + 1, _, _, hle => absurd hle (Nat.not_succ_le_zero rounds)
  | rounds + 1, rounds' + 1, s, n + 1, r, h, hle => by
    rw [readRounds] at h ⊢
    cases hrest : readRounds rounds (s.free (min (n + 1) s.nextDataBlockSize))
        (n + 1 - min (n + 1) s.nextDataBlockSize) with
    | none =>
      rw [hrest] at h
      cases h
    | some rest =>
      rw [hrest] at h
      rw [readRounds_mono hrest (Nat.le_of_succ_le_succ hle)]
      exact h

/-! ## Calls -/

/-- What a call gives back. -/
inductive Answer where
  | done
  | bytes (data : Bytes)
  | position (i : Option Nat)

/-- `reserve data`: as many bytes are reserved, and then written. `remake`: arrays that share
their memory with a block have been copied or are gone, and the block has other memory. -/
inductive Call where
  | append (data : Bytes)
  | appendArray (qba : Block)
  | reserve (data : Bytes)
  | read (maxLength : Nat)
  | readBlock
  | free (bytes : Nat)
  | chop (bytes : Nat)
  | peek (maxLength pos : Nat)
  | readLine (maxLength : Nat)
  | indexOf (c : UInt8) (maxLength pos : Nat)
  | clear
  | remake (buffers : List Block)

def readBytes (rounds : Nat) (s : RingBuffer) (maxLength : Nat) : Option (Answer × RingBuffer) := do
  let (data, s) ← readRounds rounds s (min s.bufferSize maxLength)
  some (.bytes data, s)

def perform (rounds : Nat) (s : RingBuffer) : Call → Option (Answer × RingBuffer)
  | .append data => (s.append data).map fun s => (.done, s)
  | .appendArray qba => some (.done, s.appendArray qba)
  | .reserve data => (s.append data).map fun s => (.done, s)
  | .read maxLength => readBytes rounds s maxLength
  | .readBlock => some (.bytes s.readBlock.1, s.readBlock.2)
  | .free bytes => some (.done, s.free bytes)
  | .chop bytes => some (.done, s.chop bytes)
  | .peek maxLength pos => some (.bytes (s.peek maxLength pos), s)
  | .readLine maxLength =>
    match s.lineLength maxLength with
    | none => some (.position none, s)
    | some n => readBytes rounds s n
  | .indexOf c maxLength pos => some (.position (s.indexOf c maxLength pos), s)
  | .clear => some (.done, s.clear)
  | .remake buffers => some (.done, { s with buffers := buffers })

/-- The same call on a queue of bytes. The first block is a part of the queue of any length. -/
def QueueStep : Call → Bytes → Answer → Bytes → Prop
  | .append data, q, a, q' => a = .done ∧ q' = q ++ data
  | .appendArray qba, q, a, q' => a = .done ∧ q' = q ++ qba.bytes
  | .reserve data, q, a, q' => a = .done ∧ q' = q ++ data
  | .read maxLength, q, a, q' => a = .bytes (q.take maxLength) ∧ q' = q.drop maxLength
  | .readBlock, q, a, q' => ∃ data, a = .bytes data ∧ q = data ++ q'
  | .free bytes, q, a, q' => a = .done ∧ q' = q.drop bytes
  | .chop bytes, q, a, q' => a = .done ∧ q' = q.take (q.length - bytes)
  | .peek maxLength pos, q, a, q' => a = .bytes ((q.drop pos).take maxLength) ∧ q' = q
  | .readLine maxLength, q, a, q' =>
    if maxLength ≤ 1 then a = .position none ∧ q' = q
    else a = .bytes (ByteQueue.upTo 10 (maxLength - 1) q) ∧
      q' = q.drop (ByteQueue.upTo 10 (maxLength - 1) q).length
  | .indexOf c maxLength pos, q, a, q' =>
    a = .position ((((q.drop pos).take maxLength).idxOf? c).map (· + pos)) ∧ q' = q
  | .clear, _, a, q' => a = .done ∧ q' = []
  | .remake _, q, a, q' => a = .done ∧ q' = q

/-- No more bytes are taken than there are; a block is an array that can exist. -/
def Call.Valid (s : RingBuffer) : Call → Prop
  | .appendArray qba => qba.size < maxByteArraySize ∧ qba.alloc ≤ maxByteArraySize
  | .read maxLength => maxLength ≤ s.bufferSize
  | .free bytes => bytes ≤ s.bufferSize
  | .chop bytes => bytes ≤ s.bufferSize
  | .remake buffers => buffers.map (·.bytes) = s.buffers.map (·.bytes) ∧
    ∀ b ∈ buffers, b.alloc ≤ maxByteArraySize
  | _ => True

/-- No empty block is in the way of a read, and no more bytes are appended at once than fit into
an array. -/
def Call.Sound (s : RingBuffer) : Call → Prop
  | .append data => data.length < maxByteArraySize
  | .reserve data => data.length < maxByteArraySize
  | .read maxLength => Passes s.unread (min s.bufferSize maxLength)
  | .readLine maxLength =>
    ∀ n, s.lineLength maxLength = some n → Passes s.unread (min s.bufferSize n)
  | _ => True

theorem live_congr (tail : Nat) : ∀ {bs bs' : List Block},
    bs.map (·.bytes) = bs'.map (·.bytes) → live tail bs = live tail bs'
  | [], [], _ => rfl
  | [], _ :: _, h => by cases h
  | _ :: _, [], h => by cases h
  | [b], [b'], h => by
    rw [List.map_singleton, List.map_singleton, List.singleton_inj] at h
    rw [live, live, h]
  | [_], _ :: _ :: _, h => by simp at h
  | _ :: _ :: _, [_], h => by simp at h
  | b :: c :: bs, b' :: c' :: bs', h => by
    obtain ⟨hb, htl⟩ := List.cons.inj h
    have hbytes : b.bytes = b'.bytes := hb
    rw [live, live, hbytes, live_congr tail htl]

theorem remake_shaped (h : Shaped full s) {buffers : List Block}
    (hbytes : buffers.map (·.bytes) = s.buffers.map (·.bytes))
    (halloc : ∀ b ∈ buffers, b.alloc ≤ maxByteArraySize) :
    Shaped full { s with buffers := buffers } ∧
      content { s with buffers := buffers } = s.content := by
  have hlive := live_congr s.tail hbytes
  have hc : content { s with buffers := buffers } = s.content := by
    simp only [content, hlive]
  have hlen : buffers.length = s.buffers.length := by
    simpa using congrArg List.length hbytes
  have hlast : (buffers.getLastD .empty).bytes = (s.buffers.getLastD .empty).bytes := by
    have hmap := congrArg List.getLast? hbytes
    rw [List.getLast?_map, List.getLast?_map] at hmap
    rw [List.getLastD_eq_getLast?, List.getLastD_eq_getLast?]
    cases hl : buffers.getLast? with
    | none =>
      rw [hl, Option.map_none] at hmap
      rw [Option.map_eq_none_iff.mp hmap.symm]
    | some b =>
      rw [hl, Option.map_some] at hmap
      obtain ⟨b', hb', heq⟩ := Option.map_eq_some_iff.mp hmap.symm
      rw [hb']
      exact heq.symm
  refine ⟨⟨h.basic, fun b hb => ⟨?_, halloc b hb⟩, ?_, ?_, ?_, ?_, ?_⟩, hc⟩
  · have hmem : b.bytes ∈ s.buffers.map (·.bytes) := hbytes ▸ List.mem_map_of_mem hb
    obtain ⟨b', hb', heq⟩ := List.mem_map.mp hmem
    rw [Block.size, ← heq]
    exact (h.blocks b' hb').1
  · simp only [hlen]
    exact h.tailBuffer
  · simp only [Block.size, hlast]
    exact h.tail
  · rw [hc]
    exact h.size
  · simp only [hlive]
    exact h.head
  · simp only [hlive]
    exact h.gaps

theorem readBytes_spec (h : Shaped full s) {n : Nat}
    (hpasses : Passes s.unread (min s.bufferSize n)) :
    ∃ rounds s', (∀ rounds' ≥ rounds,
        readBytes rounds' s n = some (.bytes (s.content.take n), s')) ∧
      Shaped full s' ∧ s'.content = s.content.drop n := by
  obtain ⟨rounds, s', hrounds, hs', hc⟩ := readRounds_ends (min s.bufferSize n) h
    (by rw [h.size]; exact Nat.min_le_left ..) hpasses
  have htake : s.content.take (min s.bufferSize n) = s.content.take n := by
    rw [h.size, Nat.min_comm]
    exact List.take_eq_take_min.symm
  refine ⟨rounds, s', fun rounds' hle => ?_, hs', ?_⟩
  · rw [readBytes, readRounds_mono hrounds hle, htake]
    rfl
  · rw [hc, h.size]
    rcases Nat.le_total n s.content.length with hle | hle
    · rw [Nat.min_eq_right hle]
    · rw [Nat.min_eq_left hle, List.drop_length, List.drop_of_length_le hle]

/-- A line is as long as `upTo` says. -/
theorem lineLength_spec (h : Shaped full s) {maxLength n : Nat}
    (hn : s.lineLength maxLength = some n) : ¬maxLength ≤ 1 ∧
      s.content.take n = ByteQueue.upTo 10 (maxLength - 1) s.content := by
  rw [lineLength] at hn
  by_cases hmax : maxLength ≤ 1
  · rw [if_pos hmax] at hn
    cases hn
  rw [if_neg hmax, indexOf_shaped h, List.drop_zero] at hn
  refine ⟨hmax, ?_⟩
  rw [ByteQueue.upTo]
  cases hidx : (s.content.take (maxLength - 1)).idxOf? 10 with
  | none =>
    rw [hidx] at hn
    cases hn
    rfl
  | some i =>
    rw [hidx] at hn
    cases hn
    rfl

theorem drop_take_length (q : Bytes) (n : Nat) : q.drop n = q.drop (q.take n).length := by
  rw [List.length_take]
  rcases Nat.le_total n q.length with hle | hle
  · rw [Nat.min_eq_left hle]
  · rw [Nat.min_eq_right hle, List.drop_length, List.drop_of_length_le hle]

theorem perform_spec (h : Shaped false s) (call : Call) (hvalid : call.Valid s)
    (hsound : call.Sound s) : ∃ rounds a s', (∀ rounds' ≥ rounds,
      perform rounds' s call = some (a, s')) ∧ QueueStep call s.content a s'.content ∧
        Shaped false s' := by
  cases call with
  | append data =>
    obtain ⟨s', heq, hs', hc⟩ := append_shaped h hsound
    exact ⟨0, .done, s', fun _ _ => by rw [perform, heq]; rfl, ⟨rfl, hc⟩, hs'⟩
  | appendArray qba =>
    obtain ⟨hs', hc⟩ := appendArray_shaped h hvalid.1 hvalid.2
    exact ⟨0, _, _, fun _ _ => rfl, ⟨rfl, hc⟩, hs'⟩
  | reserve data =>
    obtain ⟨s', heq, hs', hc⟩ := append_shaped h hsound
    exact ⟨0, .done, s', fun _ _ => by rw [perform, heq]; rfl, ⟨rfl, hc⟩, hs'⟩
  | read maxLength =>
    obtain ⟨rounds, s', heq, hs', hc⟩ := readBytes_spec h hsound
    exact ⟨rounds, _, s', heq, ⟨rfl, hc⟩, hs'⟩
  | readBlock =>
    obtain ⟨hdata, hs', hc⟩ := readBlock_shaped h
    refine ⟨0, _, _, fun _ _ => rfl, ⟨_, rfl, ?_⟩, hs'⟩
    rw [hdata, hc, List.take_append_drop]
  | free bytes =>
    obtain ⟨hs', hc⟩ := free_shaped h bytes
    exact ⟨0, _, _, fun _ _ => rfl, ⟨rfl, hc⟩, hs'⟩
  | chop bytes =>
    obtain ⟨hs', hc⟩ := chop_shaped h bytes
    exact ⟨0, _, _, fun _ _ => rfl, ⟨rfl, hc⟩, hs'⟩
  | peek maxLength pos =>
    exact ⟨0, _, _, fun _ _ => rfl, ⟨congrArg _ (peek_shaped h maxLength pos), rfl⟩, h⟩
  | readLine maxLength =>
    cases hn : s.lineLength maxLength with
    | none =>
      have hmax : maxLength ≤ 1 := by
        rw [lineLength] at hn
        by_contra hmax
        rw [if_neg hmax] at hn
        split at hn <;> cases hn
      refine ⟨0, .position none, s, fun _ _ => by rw [perform, hn], ?_, h⟩
      rw [QueueStep, if_pos hmax]
      exact ⟨rfl, rfl⟩
    | some n =>
      obtain ⟨hmax, htake⟩ := lineLength_spec h hn
      obtain ⟨rounds, s', heq, hs', hc⟩ := readBytes_spec h (hsound n hn)
      refine ⟨rounds, _, s', fun rounds' hle => by rw [perform, hn]; exact heq rounds' hle, ?_, hs'⟩
      rw [QueueStep, if_neg hmax, ← htake, hc]
      exact ⟨rfl, drop_take_length _ _⟩
  | indexOf c maxLength pos =>
    exact ⟨0, _, _, fun _ _ => rfl, ⟨congrArg _ (indexOf_shaped h c maxLength pos), rfl⟩, h⟩
  | clear =>
    obtain ⟨hs', hc⟩ := clear_shaped h
    exact ⟨0, _, _, fun _ _ => rfl, ⟨rfl, hc⟩, hs'⟩
  | remake buffers =>
    obtain ⟨hs', hc⟩ := remake_shaped h hvalid.1 hvalid.2
    exact ⟨0, _, _, fun _ _ => rfl, ⟨rfl, hc⟩, hs'⟩

/-! ## Runs -/

def run (rounds : Nat) (s : RingBuffer) : List Call → Option (List Answer × RingBuffer)
  | [] => some ([], s)
  | call :: rest => do
    let (a, s) ← perform rounds s call
    let (answers, s) ← run rounds s rest
    some (a :: answers, s)

def QueueRun : List Call → Bytes → List Answer → Bytes → Prop
  | [], q, answers, q' => answers = [] ∧ q' = q
  | call :: rest, q, answers, q' => ∃ a q₁ answers', answers = a :: answers' ∧
    QueueStep call q a q₁ ∧ QueueRun rest q₁ answers' q'

/-- Each call is valid and sound where it is made. -/
def Meets (s : RingBuffer) : List Call → Prop
  | [] => True
  | call :: rest => call.Valid s ∧ call.Sound s ∧
    ∀ rounds a s', perform rounds s call = some (a, s') → Meets s' rest

/-- `size()` is the sum of the live bytes of the blocks, and `m_head`, `m_tail` and `m_tailBuffer`
lead into the list of the blocks. -/
structure Inside (s : RingBuffer) : Prop where
  size : s.bufferSize = (s.unread.map List.length).sum
  content : s.unread.flatten = s.content
  tailBuffer : s.tailBuffer = s.buffers.length - 1
  tail : s.tail ≤ (s.buffers.getLastD .empty).size
  head : s.head ≤ ((live s.tail s.buffers).headD []).length

theorem Shaped.inside (h : Shaped full s) : Inside s := by
  have hhead : s.head ≤ ((live s.tail s.buffers).headD []).length := by
    rcases h.head with hz | hlt
    · omega
    · exact Nat.le_of_lt hlt
  have hcontent : s.unread.flatten = s.content := by
    rw [unread, RingBuffer.content]
    cases hl : live s.tail s.buffers with
    | nil => simp
    | cons bytes l =>
      rw [hl, List.headD_cons] at hhead
      rw [List.flatten_cons, List.flatten_cons, List.drop_append_of_le_length hhead]
  refine ⟨?_, hcontent, h.tailBuffer, h.tail, hhead⟩
  rw [h.size, ← hcontent, List.length_flatten]

theorem run_spec (h : Shaped false s) {calls reached : List Call} (hmeets : Meets s calls)
    (hreached : reached <+: calls) : ∃ rounds answers s', (∀ rounds' ≥ rounds,
      run rounds' s reached = some (answers, s')) ∧ QueueRun reached s.content answers s'.content ∧
        Shaped false s' := by
  induction reached generalizing s calls with
  | nil => exact ⟨0, [], s, fun _ _ => rfl, ⟨rfl, rfl⟩, h⟩
  | cons call reached ih =>
    obtain ⟨rest, rfl⟩ := hreached
    obtain ⟨hvalid, hsound, hrest⟩ := hmeets
    obtain ⟨r₁, a, s₁, heq, hstep, h₁⟩ := perform_spec h call hvalid hsound
    obtain ⟨r₂, answers, s', hrun, hqueue, h'⟩ := ih h₁
      (hrest r₁ a s₁ (heq r₁ (Nat.le_refl _))) (List.prefix_append reached rest)
    refine ⟨max r₁ r₂, a :: answers, s', fun rounds' hle => ?_,
      ⟨a, _, answers, rfl, hstep, hqueue⟩, h'⟩
    rw [run, heq rounds' (by omega), Option.bind_eq_bind, Option.bind_some]
    simp only [hrun rounds' (by omega)]
    rfl

/-- Wherever a run has got to, the answers and the content are those of a queue of bytes. -/
theorem refines_queue (growth : Nat) (hgrowth : growth < maxByteArraySize)
    {calls reached : List Call} (hmeets : Meets (new growth) calls) (hreached : reached <+: calls) :
    ∃ rounds answers s, (∀ rounds' ≥ rounds, run rounds' (new growth) reached = some (answers, s)) ∧
      QueueRun reached [] answers s.content ∧ Inside s := by
  obtain ⟨rounds, answers, s, hrun, hqueue, h⟩ := run_spec (new_shaped hgrowth) hmeets hreached
  exact ⟨rounds, answers, s, hrun, hqueue, h.inside⟩

/-- Two lines, of which the first is read. -/
theorem refines_queue_line : ∃ rounds answers s, (∀ rounds' ≥ rounds,
      run rounds' (new 16) [.append [97, 10, 98], .readLine 8] = some (answers, s)) ∧
      QueueRun [.append [97, 10, 98], .readLine 8] [] answers s.content ∧ Inside s := by
  refine refines_queue 16 (by decide)
    (?_ : Meets (new 16) [.append [97, 10, 98], .readLine 8]) List.prefix_rfl
  refine ⟨trivial, (by decide : 3 < maxByteArraySize), fun rounds a s' hs' => ⟨trivial, ?_,
    fun _ _ _ _ => trivial⟩⟩
  cases hs'
  exact fun _ _ => trivial

/-- Blocks of any size, an empty array between two bytes: the second byte is never read. -/
theorem read_endless : ∃ answers s, run 0 (new 0) [.append [97], .appendArray .empty, .append [98],
      .free 1] = some (answers, s) ∧ s.content = [98] ∧ Call.Valid s (.read 1) ∧
      ∀ rounds, run rounds s [.read 1] = none := by
  obtain ⟨answers, s, hrun⟩ : ∃ answers s, run 0 (new 0) [.append [97], .appendArray .empty,
    .append [98], .free 1] = some (answers, s) := ⟨_, _, rfl⟩
  refine ⟨answers, s, hrun, ?_⟩
  cases hrun
  refine ⟨rfl, (by decide : 1 ≤ 1), fun rounds => ?_⟩
  have hread : ∀ s : RingBuffer, s.bufferSize = 1 → s.nextDataBlockSize = 0 →
      run rounds s [.read 1] = none := fun s hsize hnext => by
    rw [run, perform, readBytes, hsize, Nat.min_self, readRounds_stuck hnext 0 rounds]
    rfl
  exact hread _ rfl rfl

end Libpdk.Ds.RingBuffer
