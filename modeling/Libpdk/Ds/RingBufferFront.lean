import Libpdk.Ds.RingBufferRuns

/-!
# Bytes in front of a ring buffer

`reserveFront` takes the bytes that are gone from the first block, or makes a new first block. It
asks for the basic block size where the size of the buffer is meant, and takes the head off the
tail of a block that does not have it: both conditions are the wrong way round. Where they do not
matter (`FrontSound`) the bytes come in front of the queue, in any run (`refines_deque`).
-/
namespace Libpdk.Ds

/-- `remove(0, length)`
mirrors ds/ByteArray.cpp:1023-1037 -/
def Block.removeFront (b : Block) (length : Nat) : Block :=
  { b.resize (b.size - length) with bytes := b.bytes.drop length }

namespace RingBuffer

/-- The consumed bytes of the first block are removed; `none`: `m_tail` is negative.
mirrors ds/RingBuffer.cpp:130-135 -/
def dropHead (s : RingBuffer) : Option RingBuffer :=
  if s.head > 0 then
    let t := s.setFront (·.removeFront s.head)
    if s.tailBuffer ≠ 0 then
      if s.head ≤ s.tail then some { t with tail := s.tail - s.head } else none
    else some t
  else some s

/-- A first block of `head` bytes.
mirrors ds/RingBuffer.cpp:136-147 -/
def makeFront (s : RingBuffer) (head : Nat) : RingBuffer :=
  if s.basicBlockSize = 0 then
    let t := if s.buffers = [] then { s with buffers := [.ofSize head] }
      else s.setFront (·.resize head)
    { t with head := head, tail := head }
  else
    { s with
      buffers := .ofSize head :: s.buffers
      tailBuffer := s.tailBuffer + 1
      head := head }

/-- `none`: there is no memory to write to, or a position is negative.
mirrors ds/RingBuffer.cpp:124-152 -/
def reserveFront (s : RingBuffer) (bytes : Nat) : Option RingBuffer :=
  if bytes = 0 ∨ bytes ≥ maxByteArraySize then none
  else do
    let s ← if s.head < bytes ∨ s.basicBlockSize = 0 then
        s.dropHead.map (·.makeFront (max s.basicBlockSize bytes))
      else some s
    some { s with head := s.head - bytes, bufferSize := s.bufferSize + bytes }

/-- The bytes that were reserved are filled. -/
def writeFront (s : RingBuffer) (data : Bytes) : RingBuffer := s.setFront (·.store s.head data)

def prepend (s : RingBuffer) (data : Bytes) : Option RingBuffer :=
  (s.reserveFront data.length).map (·.writeFront data)

/-- The bytes fit into what is gone from the first block, or nothing is gone and a block is put in
front of others. Without a basic block size the buffer has to be empty. -/
def FrontSound (s : RingBuffer) (bytes : Nat) : Prop :=
  bytes < maxByteArraySize ∧
    if s.basicBlockSize = 0 then s.bufferSize = 0
    else bytes ≤ s.head ∨ (s.head = 0 ∧ s.buffers ≠ [])

/-! ## The blocks -/

variable {s : RingBuffer}

theorem size_store {b : Block} {pos : Nat} {data : Bytes} (h : pos + data.length ≤ b.size) :
    (b.store pos data).size = b.size := by
  simp only [Block.store, Block.size, List.length_append, List.length_take, List.length_drop] at *
  omega

/-- The bytes from a place on, after something was stored there. -/
theorem drop_store {bytes data : Bytes} {pos : Nat} (h : pos ≤ bytes.length) :
    (bytes.take pos ++ data ++ bytes.drop (pos + data.length)).drop pos =
      data ++ bytes.drop (pos + data.length) := by
  have hlen : (bytes.take pos).length = pos := by
    rw [List.length_take, Nat.min_eq_left h]
  rw [List.append_assoc]
  nth_rewrite 1 [← hlen]
  exact List.drop_left

/-- What is in use of the first block, when something was stored in it. -/
theorem live_store {tail : Nat} {b : Block} {bs : List Block} {first : Bytes} {rest : List Bytes}
    (hlive : live tail (b :: bs) = first :: rest) {pos : Nat} {data : Bytes}
    (hfits : pos + data.length ≤ first.length) : live tail (b.store pos data :: bs) =
      (first.take pos ++ data ++ first.drop (pos + data.length)) :: rest := by
  cases bs with
  | nil =>
    rw [live, List.cons.injEq] at hlive
    obtain ⟨rfl, rfl⟩ := hlive
    rw [List.length_take] at hfits
    have hlen : (b.bytes.take pos).length = pos := by
      rw [List.length_take]
      omega
    rw [live, Block.store, List.append_assoc, List.append_assoc, List.take_append, hlen,
      List.take_append, List.take_of_length_le (show (b.bytes.take pos).length ≤ tail by omega),
      List.take_of_length_le (show data.length ≤ tail - pos by omega), List.take_take,
      Nat.min_eq_left (show pos ≤ tail by omega), List.drop_take, Nat.sub_sub]
  | cons b' bs =>
    rw [live, List.cons.injEq] at hlive
    obtain ⟨rfl, rfl⟩ := hlive
    rw [live]
    rfl

/-- The bytes go where others were taken away. -/
theorem prepend_head (h : Shaped false s) (hbasic : s.basicBlockSize ≠ 0) {data : Bytes}
    (hpos : data ≠ []) (hlen : data.length < maxByteArraySize) (hfits : data.length ≤ s.head) :
    ∃ s', s.prepend data = some s' ∧ Shaped false s' ∧ s'.content = data ++ s.content := by
  have hdata := List.length_pos_iff.mpr hpos
  have hhead : s.head < ((live s.tail s.buffers).headD []).length :=
    h.head.resolve_left (by omega)
  rcases hb : s.buffers with - | ⟨b, bs⟩
  · rw [hb] at hhead
    exact absurd hhead (by simp [live])
  obtain ⟨first, rest, hlive⟩ := live_cons s.tail b bs
  rw [hb, hlive, List.headD_cons] at hhead
  obtain ⟨pos, hposdef⟩ : ∃ pos, pos = s.head - data.length := ⟨_, rfl⟩
  have hend : pos + data.length = s.head := by omega
  have hprepend : s.prepend data = some { s with
      buffers := b.store pos data :: bs
      head := pos
      bufferSize := s.bufferSize + data.length } := by
    rw [prepend, reserveFront, if_neg (by omega), if_neg (by omega), hposdef]
    simp only [Option.bind_eq_bind, Option.bind_some, Option.map_some, writeFront, setFront, hb]
  have hsize : first.length ≤ b.size := by
    cases bs with
    | nil =>
      rw [live, List.cons.injEq] at hlive
      rw [← hlive.1, List.length_take]
      exact Nat.min_le_right _ _
    | cons b' bs =>
      rw [live, List.cons.injEq] at hlive
      rw [← hlive.1]
      exact Nat.le_refl _
  have hnew := live_store hlive (show pos + data.length ≤ first.length by omega)
  have hold : s.content = first.drop s.head ++ rest.flatten := by
    rw [content, hb, hlive, List.flatten_cons, List.drop_append_of_le_length (by omega)]
  have hlen' : (first.take pos ++ data ++ first.drop (pos + data.length)).length =
      first.length := by
    simp only [List.length_append, List.length_take, List.length_drop]
    omega
  have hc : content { s with
      buffers := b.store pos data :: bs
      head := pos
      bufferSize := s.bufferSize + data.length } = data ++ s.content := by
    simp only [content, hnew, List.flatten_cons]
    rw [List.drop_append_of_le_length (by omega), drop_store (by omega), ← content, hold, hend,
      List.append_assoc]
  refine ⟨_, hprepend, ⟨h.basic, ?_, ?_, ?_, ?_, ?_, ?_⟩, hc⟩
  · intro b₁ hb₁
    rcases List.mem_cons.mp hb₁ with rfl | hb₁
    · rw [size_store (by omega)]
      exact h.blocks b (by rw [hb]; exact List.mem_cons_self)
    · exact h.blocks b₁ (by rw [hb]; exact List.mem_cons_of_mem _ hb₁)
  · have hlast := h.tailBuffer
    rw [hb] at hlast
    exact hlast
  · have htail := h.tail
    rw [hb] at htail
    cases bs with
    | nil =>
      show s.tail ≤ (b.store pos data).size
      rw [size_store (by omega)]
      exact htail
    | cons b' bs => exact htail
  · rw [hc, List.length_append, ← h.size]
    exact Nat.add_comm _ _
  · simp only [hnew, List.headD_cons]
    omega
  · have hgaps := h.gaps
    rw [hb, hlive] at hgaps
    simp only [hnew]
    cases rest with
    | nil => exact .singleton _
    | cons x rest =>
      rw [List.isChain_cons_cons] at hgaps ⊢
      refine ⟨.inl fun hnil => ?_, hgaps.2⟩
      rw [hnil, List.length_nil] at hlen'
      omega

/-- A new block in front of others. -/
theorem prepend_block (h : Shaped false s) (hbasic : s.basicBlockSize ≠ 0) {data : Bytes}
    (hpos : data ≠ []) (hlen : data.length < maxByteArraySize) (hhead : s.head = 0)
    (hne : s.buffers ≠ []) :
    ∃ s', s.prepend data = some s' ∧ Shaped false s' ∧ s'.content = data ++ s.content := by
  have hdata := List.length_pos_iff.mpr hpos
  obtain ⟨n, hn⟩ : ∃ n, n = max s.basicBlockSize data.length := ⟨_, rfl⟩
  have hmax : n < maxByteArraySize := by
    have hbound := h.basic
    omega
  obtain ⟨pos, hposdef⟩ : ∃ pos, pos = n - data.length := ⟨_, rfl⟩
  have hend : pos + data.length = n := by omega
  obtain ⟨b, hb⟩ : ∃ b, b = (Block.ofSize n).store pos data := ⟨_, rfl⟩
  have hsize : b.size = n := by
    rw [hb, size_store (by rw [Block.size_ofSize]; omega), Block.size_ofSize]
  have hbytes : b.bytes.drop pos = data := by
    rw [hb, Block.store, drop_store (by rw [Block.ofSize, List.length_replicate]; omega), hend,
      Block.ofSize, List.drop_of_length_le (by rw [List.length_replicate]), List.append_nil]
  obtain ⟨b₀, bs, hb₀⟩ := List.exists_cons_of_ne_nil hne
  have hprepend : s.prepend data = some { s with
      buffers := b :: s.buffers
      tailBuffer := s.tailBuffer + 1
      head := pos
      bufferSize := s.bufferSize + data.length } := by
    rw [prepend, reserveFront, if_neg (by omega), if_pos (by omega), dropHead,
      if_neg (by omega), Option.map_some, makeFront, if_neg hbasic, hb, hposdef, hn]
    rfl
  have hlive : live s.tail (b :: s.buffers) = b.bytes :: live s.tail s.buffers := by
    rw [hb₀, live]
  have hc : content { s with
      buffers := b :: s.buffers
      tailBuffer := s.tailBuffer + 1
      head := pos
      bufferSize := s.bufferSize + data.length } = data ++ s.content := by
    rw [Block.size] at hsize
    simp only [content, hlive, List.flatten_cons]
    rw [List.drop_append_of_le_length (by omega), hbytes, hhead, List.drop_zero]
  refine ⟨_, hprepend, ⟨h.basic, ?_, ?_, ?_, ?_, ?_, ?_⟩, hc⟩
  · intro b₁ hb₁
    rcases List.mem_cons.mp hb₁ with rfl | hb₁
    · refine ⟨by omega, ?_⟩
      rw [hb]
      exact hmax
    · exact h.blocks b₁ hb₁
  · have hlast := h.tailBuffer
    rw [hb₀] at hlast ⊢
    simp only [List.length_cons] at hlast ⊢
    omega
  · have htail := h.tail
    rw [hb₀] at htail ⊢
    exact htail
  · rw [hc, List.length_append, ← h.size]
    exact Nat.add_comm _ _
  · rw [Block.size] at hsize
    simp only [hlive, List.headD_cons]
    omega
  · have hgaps := h.gaps
    simp only [hlive]
    rw [hb₀] at hgaps ⊢
    obtain ⟨first, rest, hfirst⟩ := live_cons s.tail b₀ bs
    rw [hfirst] at hgaps ⊢
    refine List.isChain_cons_cons.mpr ⟨.inl fun hnil => ?_, hgaps⟩
    rw [hnil, List.drop_nil] at hbytes
    exact hpos hbytes.symm

/-- Without a basic block size, one block of an empty buffer. -/
theorem prepend_empty (h : Shaped false s) (hbasic : s.basicBlockSize = 0) {data : Bytes}
    (hpos : data ≠ []) (hlen : data.length < maxByteArraySize) (hempty : s.bufferSize = 0) :
    ∃ s', s.prepend data = some s' ∧ Shaped false s' ∧ s'.content = data ++ s.content := by
  have hdata := List.length_pos_iff.mpr hpos
  obtain ⟨hle, hhead, htail⟩ := h.empty hempty
  have hcontent := h.content_nil.mp hempty
  have hmax : max s.basicBlockSize data.length = data.length := by omega
  obtain ⟨b, hb⟩ : ∃ b, b = if s.buffers = [] then Block.ofSize data.length
    else s.front.resize data.length := ⟨_, rfl⟩
  have hsize : b.size = data.length := by
    rw [hb]
    split
    · exact Block.size_ofSize _
    · exact Block.size_resize _ _
  have halloc : b.alloc ≤ maxByteArraySize := by
    rw [hb]
    split
    · exact hlen
    · next hne =>
      obtain ⟨b₀, bs, hb₀⟩ := List.exists_cons_of_ne_nil hne
      refine Block.alloc_resize (h.blocks _ ?_).2 hlen
      rw [RingBuffer.front, hb₀]
      exact List.mem_cons_self
  have hbytes : (b.store 0 data).bytes = data := by
    rw [Block.store, List.take_zero, List.nil_append, Nat.zero_add,
      List.drop_of_length_le (Nat.le_of_eq hsize), List.append_nil]
  have hprepend : s.prepend data = some { s with
      buffers := [b.store 0 data]
      head := 0
      tail := data.length
      bufferSize := data.length } := by
    rw [prepend, reserveFront, if_neg (by omega), if_pos (.inr hbasic), dropHead,
      if_neg (by omega), Option.map_some, makeFront, if_pos hbasic, hmax]
    simp only [Option.bind_eq_bind, Option.bind_some, Option.map_some, Nat.sub_self, hempty,
      writeFront, setFront, hb]
    rcases hb₀ : s.buffers with - | ⟨b₀, - | ⟨b₁, bs⟩⟩
    · simp
    · simp [RingBuffer.front, hb₀]
    · rw [hb₀] at hle
      simp at hle
  have hlive : live data.length [b.store 0 data] = [data] := by
    rw [live, hbytes, List.take_length]
  have hc : content { s with
      buffers := [b.store 0 data]
      head := 0
      tail := data.length
      bufferSize := data.length } = data ++ s.content := by
    rw [content, hlive, hcontent, List.flatten_singleton, List.drop_zero, List.append_nil]
  refine ⟨_, hprepend, ⟨h.basic, ?_, ?_, ?_, ?_, .inl rfl, ?_⟩, hc⟩
  · intro b₁ hb₁
    rw [List.mem_singleton.mp hb₁, size_store (by omega)]
    exact ⟨by omega, halloc⟩
  · have hlast := h.tailBuffer
    simp only [List.length_singleton]
    omega
  · show data.length ≤ (b.store 0 data).size
    rw [size_store (by omega), hsize]
  · rw [hc, hcontent, List.append_nil]
  · simp only [hlive]
    exact .singleton _

theorem prepend_shaped (h : Shaped false s) {data : Bytes} (hpos : data ≠ [])
    (hsound : s.FrontSound data.length) :
    ∃ s', s.prepend data = some s' ∧ Shaped false s' ∧ s'.content = data ++ s.content := by
  obtain ⟨hlen, hsound⟩ := hsound
  by_cases hbasic : s.basicBlockSize = 0
  · rw [if_pos hbasic] at hsound
    exact prepend_empty h hbasic hpos hlen hsound
  · rw [if_neg hbasic] at hsound
    rcases hsound with hfits | ⟨hhead, hne⟩
    · exact prepend_head h hbasic hpos hlen hfits
    · exact prepend_block h hbasic hpos hlen hhead hne

/-! ## Runs -/

/-- A call of the queue, or bytes that are put back in front of it. -/
inductive DequeCall where
  | queue (call : Call)
  | reserveFront (data : Bytes)

namespace DequeCall

def perform (rounds : Nat) (s : RingBuffer) : DequeCall → Option (Answer × RingBuffer)
  | .queue call => RingBuffer.perform rounds s call
  | .reserveFront data => (s.prepend data).map fun s => (.done, s)

def Step : DequeCall → Bytes → Answer → Bytes → Prop
  | .queue call, q, a, q' => QueueStep call q a q'
  | .reserveFront data, q, a, q' => a = .done ∧ q' = data ++ q

/-- Some bytes are put back. -/
def Valid (s : RingBuffer) : DequeCall → Prop
  | .queue call => call.Valid s
  | .reserveFront data => data ≠ []

def Sound (s : RingBuffer) : DequeCall → Prop
  | .queue call => call.Sound s
  | .reserveFront data => s.FrontSound data.length

def run (rounds : Nat) (s : RingBuffer) : List DequeCall → Option (List Answer × RingBuffer)
  | [] => some ([], s)
  | call :: rest => do
    let (a, s) ← call.perform rounds s
    let (answers, s) ← run rounds s rest
    some (a :: answers, s)

def Run : List DequeCall → Bytes → List Answer → Bytes → Prop
  | [], q, answers, q' => answers = [] ∧ q' = q
  | call :: rest, q, answers, q' => ∃ a q₁ answers', answers = a :: answers' ∧
    call.Step q a q₁ ∧ Run rest q₁ answers' q'

/-- Each call is valid and sound where it is made. -/
def Meets (s : RingBuffer) : List DequeCall → Prop
  | [] => True
  | call :: rest => call.Valid s ∧ call.Sound s ∧
    ∀ rounds a s', call.perform rounds s = some (a, s') → Meets s' rest

theorem perform_spec (h : Shaped false s) (call : DequeCall) (hvalid : call.Valid s)
    (hsound : call.Sound s) : ∃ rounds a s', (∀ rounds' ≥ rounds,
      call.perform rounds' s = some (a, s')) ∧ call.Step s.content a s'.content ∧
        Shaped false s' := by
  cases call with
  | queue call => exact RingBuffer.perform_spec h call hvalid hsound
  | reserveFront data =>
    obtain ⟨s', heq, hs', hc⟩ := prepend_shaped h hvalid hsound
    exact ⟨0, .done, s', fun _ _ => by rw [perform, heq]; rfl, ⟨rfl, hc⟩, hs'⟩

theorem run_spec (h : Shaped false s) {calls reached : List DequeCall} (hmeets : Meets s calls)
    (hreached : reached <+: calls) : ∃ rounds answers s', (∀ rounds' ≥ rounds,
      run rounds' s reached = some (answers, s')) ∧ Run reached s.content answers s'.content ∧
        Shaped false s' := by
  induction reached generalizing s calls with
  | nil => exact ⟨0, [], s, fun _ _ => rfl, ⟨rfl, rfl⟩, h⟩
  | cons call reached ih =>
    obtain ⟨rest, rfl⟩ := hreached
    obtain ⟨hvalid, hsound, hrest⟩ := hmeets
    obtain ⟨r₁, a, s₁, heq, hstep, h₁⟩ := perform_spec h call hvalid hsound
    obtain ⟨r₂, answers, s', hrun, hqueue, h'⟩ := ih h₁
      (hrest r₁ a s₁ (heq r₁ (Nat.le_refl _))) (List.prefix_append reached rest)
    refine ⟨max r₁ r₂, a :: answers, s', fun rounds' hle => ?_,
      ⟨a, _, answers, rfl, hstep, hqueue⟩, h'⟩
    rw [run, heq rounds' (by omega), Option.bind_eq_bind, Option.bind_some]
    simp only [hrun rounds' (by omega)]
    rfl

end DequeCall

end RingBuffer

end Libpdk.Ds
