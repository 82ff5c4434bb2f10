import Libpdk.Codecs.Utf8RoundTrip

/-!
# Decoding UTF-8 in chunks

A text whose bytes come in chunks, cut anywhere, and one state. `Cut q text`: the bytes
`q` are the beginning of the next character, not all of it. Each call decodes the
characters that are complete with its chunk (`call_good`) and saves the rest. The
header stays open as long as all was ASCII and decoded sixteen bytes at a time, and
then the first other character is taken for it if it is U+FEFF (`takesForHeader`).
-/
namespace Libpdk.Codecs.Utf8

open Character Unicode

/-! ## Characters that were cut -/

/-- The bytes are the beginning of the next character, not all of it. -/
def Cut (q : Bytes) (text : List Char) : Prop :=
  q ≠ [] → ∃ c text' r, text = c :: text' ∧ bytes c = q ++ r ∧ r ≠ []

theorem Cut.nil (text : List Char) : Cut [] text := fun h => absurd rfl h

/-- Where bytes of a text end, characters are complete and one may be cut. -/
theorem exists_cut : ∀ {text : List Char} {y rest : Bytes}, y ++ rest = utf8 text →
    ∃ ts ts' q, text = ts ++ ts' ∧ y = utf8 ts ++ q ∧ q ++ rest = utf8 ts' ∧ Cut q ts'
  | [], y, rest, h => by
    obtain ⟨hy, hr⟩ := List.append_eq_nil_iff.mp h
    exact ⟨[], [], [], rfl, hy, by rw [hr]; rfl, Cut.nil _⟩
  | c :: text, y, rest, h => by
    rw [utf8_cons] at h
    rcases List.append_eq_append_iff.mp h with ⟨r, hc, hr⟩ | ⟨y', hy, hr⟩
    · by_cases hnil : r = []
      · refine ⟨[c], text, [], rfl, ?_, ?_, Cut.nil _⟩
        · simp [hc, hnil]
        · rw [hr, hnil, List.nil_append, List.nil_append]
      · exact ⟨[], c :: text, y, rfl, rfl, by rw [utf8_cons]; exact h, fun _ => ⟨c, text, r, rfl, hc, hnil⟩⟩
    · obtain ⟨ts, ts', q, ht, hy', hq, hcut⟩ := exists_cut hr.symm
      refine ⟨c :: ts, ts', q, by rw [ht]; rfl, ?_, hq, hcut⟩
      rw [hy, hy', utf8_cons, List.append_assoc]

theorem Cut.length {q : Bytes} {text : List Char} (h : Cut q text) : q.length ≤ 3 := by
  by_cases hq : q = []
  · simp [hq]
  · obtain ⟨c, -, r, -, hc, hr⟩ := h hq
    have hlen := congrArg List.length hc
    have hpos := List.length_pos_iff.mpr hr
    rw [List.length_append] at hlen
    have hle : (bytes c).length ≤ 4 := by
      rcases bytes_cases c with ⟨-, e⟩ | ⟨-, -, e⟩ | ⟨-, -, e⟩ | ⟨-, -, e⟩ <;> rw [e] <;> simp
    omega

theorem fromUtf8_of_cut {b : UInt8} {s : Bytes} {text : List Char} (h : Cut (b :: s) text) :
    fromUtf8 b s = .endOfString := by
  obtain ⟨c, -, r, -, hc, hr⟩ := h (by simp)
  exact fromUtf8_cut hc hr

/-! ## ASCII and the byte order mark -/

theorem ascii_lead {c : Char} {b : UInt8} {s : Bytes} (h : bytes c = b :: s)
    (hb : ascii b = true) : c.toNat < 0x80 ∧ s = [] := by
  have hc := scalar c
  rw [ascii, decide_eq_true_eq] at hb
  rcases bytes_cases c with ⟨hlt, e⟩ | ⟨_, _, e⟩ | ⟨_, _, e⟩ | ⟨_, _, e⟩
  · rw [e, List.cons.injEq] at h
    exact ⟨hlt, h.2.symm⟩
  all_goals
    rw [e, List.cons.injEq] at h
    rw [← h.1, toNat_ofNat8 (by omega)] at hb
    omega

/-- ASCII in front of a text are its first characters. -/
theorem exists_ascii {q rest : Bytes} {text : List Char} (hq : Cut q text) :
    ∀ {front : Bytes} {ts : List Char}, (∀ b ∈ front, ascii b = true) →
    utf8 ts ++ q = front ++ rest →
    ∃ ta tb, ts = ta ++ tb ∧ front = utf8 ta ∧ rest = utf8 tb ++ q ∧
      utf16 ta = front.map UInt8.toUInt16 ∧ ∀ c ∈ ta, c.toNat < 0x80
  | [], ts, _, he => ⟨[], ts, rfl, rfl, he.symm, rfl, by simp⟩
  | b :: front, [], hf, he => by
    rw [utf8_nil, List.nil_append] at he
    obtain ⟨c, -, r, -, hc, hr⟩ := hq (by rw [he]; simp)
    rw [he, List.cons_append, List.cons_append] at hc
    have hs := (ascii_lead hc (hf b (by simp))).2
    exact absurd (List.append_eq_nil_iff.mp hs).2 hr
  | b :: front, c :: ts, hf, he => by
    obtain ⟨x, s, hx⟩ := List.exists_cons_of_ne_nil (bytes_ne_nil c)
    rw [utf8_cons, hx, List.append_assoc, List.cons_append, List.cons_append, List.cons.injEq] at he
    obtain ⟨rfl, he⟩ := he
    obtain ⟨hlt, rfl⟩ := ascii_lead hx (hf x (by simp))
    obtain ⟨ta, tb, hts, hfront, hrest, hunits, hta⟩ :=
      exists_ascii hq (fun z hz => hf z (by simp [hz])) he
    refine ⟨c :: ta, tb, by rw [hts]; rfl, by rw [utf8_cons, hx, hfront]; rfl, hrest, ?_,
      List.forall_mem_cons.mpr ⟨hlt, hta⟩⟩
    rw [utf16_cons, units_of_lt (by omega), hunits, List.map_cons, List.singleton_append]
    congr 1
    have hxn : x = UInt8.ofNat c.toNat := by
      rw [bytes_one hlt, List.cons.injEq] at hx
      exact hx.1.symm
    rw [← UInt16.toNat_inj, UInt8.toNat_toUInt16, hxn, toNat_ofNat8 (by omega),
      toNat_ofNat16 (by omega)]

theorem eatBom_units (dst : Str) (c : Char) :
    eatBom (dst ++ units c) = if c = bom then dst else dst ++ units c := by
  have hc := scalar c
  by_cases hb : c = bom
  · rw [if_pos hb, hb, units_bom, eatBom, List.getLast?_append]
    simp
  · rw [if_neg hb, eatBom, if_neg]
    intro h
    rcases Nat.lt_or_ge c.toNat 0x10000 with hlt | hge
    · rw [units_of_lt hlt, List.getLast?_append] at h
      simp only [List.getLast?_singleton, Option.some_or, Option.some_inj] at h
      refine hb (eq_of_toNat ?_)
      rw [← toNat_ofNat16 hlt, h]
      rfl
    · rw [units_of_ge hge, List.getLast?_append] at h
      simp only [List.getLast?_cons_cons, List.getLast?_singleton, Option.some_or,
        Option.some_inj] at h
      rw [← UInt16.toNat_inj, toNat_ofNat16 (by omega)] at h
      simp only [byteOrderMark, UInt16.reduceToNat] at h
      omega

/-! ## The loop with the header done -/

/-- What the loop makes of bytes one character at a time: units, errors, and what is unread. -/
def decodeSteps (replacement : UInt16) : Bytes → Str × Nat × Bytes
  | [] => ([], 0, [])
  | b :: src =>
    match fromUtf8 b src with
    | .endOfString => ([], 0, b :: src)
    | .error =>
      let (units, invalid, rest) := decodeSteps replacement src
      (replacement :: units, invalid + 1, rest)
    | .done units charsNeeded =>
      let (units', invalid, rest) := decodeSteps replacement (src.drop (charsNeeded - 1))
      (units ++ units', invalid, rest)
termination_by src => src.length
decreasing_by
  all_goals simp only [List.length_drop, List.length_cons]; omega

@[simp] theorem decodeSteps_nil (r : UInt16) : decodeSteps r [] = ([], 0, []) := by
  rw [decodeSteps]

theorem decodeSteps_ascii (r : UInt16) : ∀ {front : Bytes}, (∀ b ∈ front, ascii b = true) →
    ∀ src : Bytes, decodeSteps r (front ++ src) =
      (front.map UInt8.toUInt16 ++ (decodeSteps r src).1, (decodeSteps r src).2)
  | [], _, _ => rfl
  | b :: front, h, src => by
    have hb : b.toNat < 0x80 := by simpa [ascii] using h b (by simp)
    have ih : decodeSteps r (front ++ src) = _ :=
      decodeSteps_ascii r (fun x hx => h x (by simp [hx])) src
    rw [List.cons_append, decodeSteps, fromUtf8, if_pos hb]
    simp only [Nat.sub_self, List.drop_zero, ih, List.map_cons, List.cons_append, List.nil_append]

theorem decodeSteps_cut (r : UInt16) {q : Bytes} {text : List Char} (h : Cut q text) :
    decodeSteps r q = ([], 0, q) := by
  cases q with
  | nil => rw [decodeSteps]
  | cons b s => rw [decodeSteps, fromUtf8_of_cut h]

theorem decodeSteps_char (r : UInt16) {c : Char} (h : ¬ Mistaken c) (src : Bytes) :
    decodeSteps r (bytes c ++ src) =
      (units c ++ (decodeSteps r src).1, (decodeSteps r src).2) := by
  obtain ⟨b, s, hb, hfrom⟩ := fromUtf8_bytes c
  rw [hb, List.cons_append, decodeSteps, hfrom, if_neg h, hb]
  simp

theorem decodeSteps_good (r : UInt16) {q : Bytes} {text : List Char} (hq : Cut q text) :
    ∀ {ts : List Char}, (∀ c ∈ ts, ¬ Mistaken c) → decodeSteps r (utf8 ts ++ q) = (utf16 ts, 0, q)
  | [], _ => decodeSteps_cut r hq
  | c :: ts, h => by
    rw [List.forall_mem_cons] at h
    rw [utf8_cons, List.append_assoc, decodeSteps_char r h.1, decodeSteps_good r hq h.2, utf16_cons]

/-- A character that is taken for a surrogate is counted as invalid. -/
theorem decodeSteps_bad (r : UInt16) {q : Bytes} : ∀ {ts : List Char},
    (∃ c ∈ ts, Mistaken c) → 0 < (decodeSteps r (utf8 ts ++ q)).2.1
  | [], h => by simp at h
  | c :: ts, h => by
    rw [utf8_cons, List.append_assoc]
    by_cases hm : Mistaken c
    · obtain ⟨b, s, hb, hfrom⟩ := fromUtf8_bytes c
      rw [hb, List.cons_append, decodeSteps, hfrom, if_pos hm]
      exact Nat.succ_pos _
    · rw [decodeSteps_char r hm]
      refine decodeSteps_bad r ?_
      obtain ⟨d, hd, hm'⟩ := h
      rcases List.mem_cons.mp hd with rfl | hd
      · exact absurd hm' hm
      · exact ⟨d, hd, hm'⟩

/-- The first character of a text of which something is held. -/
theorem exists_held {p x q : Bytes} {ts ts' : List Char} (hp : p ≠ []) (hcut : Cut p (ts ++ ts'))
    (hx : p ++ x = utf8 ts ++ q) (hts : ts ≠ []) :
    ∃ c tl, ts = c :: tl ∧ p.length < (bytes c).length ∧ p ++ x = bytes c ++ (utf8 tl ++ q) := by
  obtain ⟨c, tl, rfl⟩ := List.exists_cons_of_ne_nil hts
  obtain ⟨d, tl', r, hd, hr, hne⟩ := hcut hp
  rw [List.cons_append, List.cons.injEq] at hd
  have hlen := congrArg List.length hr
  have hpos := List.length_pos_iff.mpr hne
  rw [List.length_append, ← hd.1] at hlen
  exact ⟨c, tl, rfl, by omega, by rw [hx, utf8_cons, List.append_assoc]⟩

/-! ## What a state holds -/

/-- The bytes that the state holds. -/
structure Holds (st : ConverterState Bytes) (p : Bytes) : Prop where
  remaining : st.remainingChars = p.length
  data : st.stateData.take p.length = p

theorem bytes_length (c : Char) : (bytes c).length ≤ 4 := by
  rcases bytes_cases c with ⟨-, e⟩ | ⟨-, -, e⟩ | ⟨-, -, e⟩ | ⟨-, -, e⟩ <;> rw [e] <;> simp

/-- Too few bytes are saved. -/
theorem decodeRemaining_cut (r : UInt16) {st : ConverterState Bytes} {p x : Bytes}
    {text : List Char} (h : Holds st p) (hp : p ≠ []) (hx : x ≠ []) (hcut : Cut (p ++ x) text) :
    decodeRemaining r x st = none ∧
      st.stateData.take st.remainingChars ++ x.take (4 - st.remainingChars) = p ++ x := by
  have hlen := hcut.length
  rw [List.length_append] at hlen
  have hdata : st.stateData.take st.remainingChars ++ x.take (4 - st.remainingChars) = p ++ x := by
    rw [h.remaining, h.data, List.take_of_length_le (by omega)]
  refine ⟨?_, hdata⟩
  obtain ⟨b, s, hb⟩ := List.exists_cons_of_ne_nil (show p ++ x ≠ [] by simp [hp])
  rw [decodeRemaining]
  simp only
  rw [hdata, hb]
  simp only
  rw [fromUtf8_of_cut (hb ▸ hcut)]
  simp [hx]

/-- The character that was cut is complete. -/
theorem decodeRemaining_char (r : UInt16) {st : ConverterState Bytes} {p x rest : Bytes}
    {c : Char} (h : Holds st p) (hp : p.length < (bytes c).length) (hx : p ++ x = bytes c ++ rest) :
    decodeRemaining r x st = some (if Mistaken c then ⟨[r], x, x.length, st.ignoreHeader, 1⟩
      else ⟨if !st.ignoreHeader then eatBom (units c) else units c, rest, rest.length, true, 0⟩) := by
  have hle := bytes_length c
  have hdata : st.stateData.take st.remainingChars ++ x.take (4 - st.remainingChars) =
      bytes c ++ rest.take (4 - (bytes c).length) := by
    have htake : p ++ x.take (4 - p.length) = (p ++ x).take 4 := by
      rw [List.take_append, List.take_of_length_le (l := p) (by omega)]
    rw [h.remaining, h.data, htake, hx, List.take_append, List.take_of_length_le hle]
  have hdrop : x.drop ((bytes c).length - p.length) = rest := by
    have := congrArg (List.drop (bytes c).length) hx
    rw [List.drop_left, List.drop_append, List.drop_of_length_le (by omega), List.nil_append] at this
    exact this
  obtain ⟨b, s, hb, hfrom⟩ := fromUtf8_bytes c
  generalize rest.take (4 - (bytes c).length) = more at hdata
  have hcons : bytes c ++ more = b :: (s ++ more) := by rw [hb, List.cons_append]
  rw [decodeRemaining]
  simp only
  rw [hdata, hcons]
  simp only
  rw [hfrom]
  by_cases hm : Mistaken c
  · rw [if_pos hm, if_pos hm]
  · rw [if_neg hm, if_neg hm]
    simp only [h.remaining, hdrop]

/-- The end of a call whose loop is left with the bytes `q`. -/
theorem holds_end {st : ConverterState Bytes} {d : Decoding × Bool} {q : Bytes} {i : Nat}
    {header : Bool} (hsrc : d.1.src = q) (hflag : d.2 = true ↔ q ≠ []) :
    Holds { st with
      invalidChars := i
      ignoreHeader := header
      remainingChars := if d.2 then d.1.src.length else 0
      stateData := if d.2 then d.1.src ++ st.stateData.drop d.1.src.length else st.stateData } q := by
  by_cases hq : q = []
  · have hd : d.2 = false := by simpa [hq] using hflag
    rw [hd, hq]
    exact ⟨rfl, by simp⟩
  · have hd : d.2 = true := hflag.mpr hq
    rw [hd, hsrc]
    exact ⟨rfl, by simp⟩

section Build

variable [Build]

/-- What the loop does but for the header, which it may take from what is decoded. -/
structure Looped (r : UInt16) (d : Decoding) (result : Decoding × Bool) : Prop where
  invalid : result.1.invalid = d.invalid + (decodeSteps r d.src).2.1
  src : result.1.src = (decodeSteps r d.src).2.2
  flag : result.2 = true ↔ (decodeSteps r d.src).2.2 ≠ []
  dst : d.headerdone = true → result.1.dst = d.dst ++ (decodeSteps r d.src).1
  headerdone : d.headerdone = true → result.1.headerdone = true

/-- The scan at the head of the loop. -/
theorem scan_copied (nextAscii : Nat) (src : Bytes) :
    ∃ front, Copied ascii UInt8.toUInt16 src front
      (if src.length ≤ nextAscii then simdDecodeAscii nextAscii src
        else ⟨[], src, nextAscii, false⟩) := by
  split
  · exact simdDecodeAscii_copied nextAscii src
  · exact ⟨[], rfl, by simp, rfl, by simp⟩

theorem decodeLoop_looped (r : UInt16) (start : Nat) : ∀ (rounds : Nat) (d : Decoding),
    d.src.length ≤ rounds → Looped r d (decodeLoop r start rounds d)
  | 0, d, h => by
    have hnil : d.src = [] := List.length_eq_zero_iff.mp (Nat.le_zero.mp h)
    refine ⟨?_, ?_, ?_, fun _ => ?_, fun h => h⟩ <;> simp [decodeLoop, hnil]
  | rounds + 1, d, h => by
    rw [decodeLoop]
    split
    · rename_i hnil
      refine ⟨?_, ?_, ?_, fun _ => ?_, fun h => h⟩ <;> simp [hnil]
    rename_i hne
    obtain ⟨front, hc⟩ := scan_copied d.nextAscii d.src
    simp only
    generalize (if d.src.length ≤ d.nextAscii then simdDecodeAscii d.nextAscii d.src
      else ⟨[], d.src, d.nextAscii, false⟩) = scan at hc
    have hsteps := decodeSteps_ascii r hc.plain scan.src
    rw [← hc.src, ← hc.out] at hsteps
    have hlen := congrArg List.length hc.src
    rw [List.length_append] at hlen
    split
    · rename_i hd
      rw [hc.done hd, decodeSteps] at hsteps
      refine ⟨?_, ?_, ?_, fun _ => ?_, fun h => h⟩ <;> simp [hsteps, hc.done hd]
    · split
      · rename_i hnil
        rw [hnil, decodeSteps] at hsteps
        refine ⟨?_, ?_, ?_, fun _ => ?_, fun h => h⟩ <;> simp [hsteps, hnil]
      · rename_i ch src hsrc
        rw [hsrc, decodeSteps] at hsteps
        rw [hsrc, List.length_cons] at hlen
        split
        · rename_i hfrom
          simp only [hfrom] at hsteps
          refine ⟨?_, ?_, ?_, fun _ => ?_, fun h => h⟩ <;> simp [hsteps, hsrc]
        · rename_i hfrom
          simp only [hfrom] at hsteps
          have ih := decodeLoop_looped r start rounds
            { d with
              dst := d.dst ++ scan.out ++ [r], src := src, nextAscii := scan.nextAscii,
              invalid := d.invalid + 1 } (by simp only; omega)
          refine ⟨?_, ?_, ?_, fun hd => ?_, fun hd => ih.headerdone hd⟩
          · rw [ih.invalid, hsteps]
            exact Nat.succ_add_eq_add_succ _ _
          · rw [ih.src, hsteps]
          · rw [ih.flag, hsteps]
          · rw [ih.dst hd, hsteps]
            simp
        · rename_i us n hfrom
          simp only [hfrom] at hsteps
          have ih := decodeLoop_looped r start rounds
            { d with
              dst := if (!d.headerdone && start == (src.drop (n - 1)).length + 3) = true then
                  eatBom (d.dst ++ scan.out ++ us) else d.dst ++ scan.out ++ us,
              src := src.drop (n - 1), nextAscii := scan.nextAscii, headerdone := true }
            (by simp only [List.length_drop]; omega)
          refine ⟨?_, ?_, ?_, fun hd => ?_, fun hd => ih.headerdone rfl⟩
          · rw [ih.invalid, hsteps]
          · rw [ih.src, hsteps]
          · rw [ih.flag, hsteps]
          · rw [ih.dst rfl, hsteps]
            simp [hd]

/-! ## The loop with the header open -/

/-- What the loop does with its header open to good characters: those of `ta` are scanned, the
first of `tb` closes the header. -/
theorem decodeLoop_open (r : UInt16) {x q : Bytes} {ts text : List Char} (hq : Cut q text)
    (hx : x = utf8 ts ++ q) (hts : ∀ c ∈ ts, ¬ Mistaken c) (hne : x ≠ []) (rounds : Nat)
    (hr : x.length ≤ rounds + 1) :
    let scan := simdDecodeAscii x.length x
    let result := decodeLoop r x.length (rounds + 1) ⟨[], x, x.length, false, 0⟩
    ∃ ta tb, ts = ta ++ tb ∧ (∀ c ∈ ta, c.toNat < 0x80) ∧ scan.src = utf8 tb ++ q ∧
      result.1.headerdone = decide (tb ≠ []) ∧
      result.1.dst = utf16 (if ta = [] ∧ tb.head? = some bom then tb.tail else ts) := by
  obtain ⟨front, hc⟩ := simdDecodeAscii_copied x.length x
  obtain ⟨ta, tb, hts', hfront, hrest, hunits, hta⟩ :=
    exists_ascii hq hc.plain (hx.symm.trans hc.src)
  have hout := hc.out
  rw [← hunits] at hout
  have hlen := congrArg List.length hc.src
  rw [List.length_append] at hlen
  refine ⟨ta, tb, hts', hta, hrest, ?_⟩
  rw [decodeLoop, if_neg hne]
  simp only [le_refl, if_true, List.nil_append]
  generalize simdDecodeAscii x.length x = scan at *
  have hscanned (htb : tb = []) : utf16 (if ta = [] ∧ tb.head? = some bom then tb.tail else ts) =
      scan.out := by
    rw [if_neg (by simp [htb]), hts', htb, List.append_nil, hout]
  split
  · rename_i hd
    have htb : tb = [] := by
      rw [hc.done hd] at hrest
      cases tb with
      | nil => rfl
      | cons c tb => exact absurd hrest.symm (by simp [bytes_ne_nil])
    exact ⟨by simp [htb], (hscanned htb).symm⟩
  split
  · rename_i hnil
    have htb : tb = [] := by
      rw [hnil] at hrest
      cases tb with
      | nil => rfl
      | cons c tb => exact absurd hrest.symm (by simp [bytes_ne_nil])
    exact ⟨by simp [htb], (hscanned htb).symm⟩
  rename_i ch src hcons
  rw [hcons] at hrest hlen
  rw [List.length_cons] at hlen
  cases tb with
  | nil =>
    rw [utf8_nil, List.nil_append] at hrest
    rw [fromUtf8_of_cut (hrest ▸ hq)]
    exact ⟨by simp, (hscanned rfl).symm⟩
  | cons c tb =>
    have hm : ¬ Mistaken c := hts c (by simp [hts'])
    have htb : ∀ d ∈ tb, ¬ Mistaken d := fun d hd => hts d (by simp [hts', hd])
    obtain ⟨b, s, hb, hfrom⟩ := fromUtf8_bytes c
    rw [utf8_cons, hb, List.append_assoc, List.cons_append, List.cons.injEq] at hrest
    obtain ⟨rfl, rfl⟩ := hrest
    simp only [if_neg hm] at hfrom
    rw [hfrom]
    have hdrop : (s ++ (utf8 tb ++ q)).drop ((bytes c).length - 1) = utf8 tb ++ q := by
      rw [hb, List.length_cons, Nat.add_sub_cancel, List.drop_left]
    simp only [hdrop]
    have hloop := decodeLoop_looped r x.length rounds
      { dst := if (!false && x.length == (utf8 tb ++ q).length + 3) = true then
          eatBom (scan.out ++ units c) else scan.out ++ units c,
        src := utf8 tb ++ q, nextAscii := scan.nextAscii, headerdone := true, invalid := 0 }
      (by simp only [List.length_append] at hlen ⊢; omega)
    refine ⟨by rw [hloop.headerdone rfl]; simp, ?_⟩
    rw [hloop.dst rfl, decodeSteps_good r hq htb, eatBom_units]
    simp only [Bool.not_false, Bool.true_and, beq_iff_eq, List.head?_cons, Option.some_inj,
      List.tail_cons]
    -- a first character of three bytes is at the start where nothing was scanned
    have hthree : x.length = (utf8 tb ++ q).length + 3 ↔ front.length + (bytes c).length = 3 := by
      rw [hb, List.length_cons, hlen]
      simp only [List.length_append]
      omega
    have hnone : front.length = 0 ↔ ta = [] := by
      rw [List.length_eq_zero_iff, hfront]
      cases ta <;> simp [bytes_ne_nil]
    have hpos := List.length_pos_iff.mpr (bytes_ne_nil c)
    have hall : scan.out ++ units c ++ utf16 tb = utf16 (ta ++ c :: tb) := by
      rw [utf16_append, utf16_cons, hout, List.append_assoc]
    rw [hts']
    by_cases hbom : c = bom
    · have hl : (bytes c).length = 3 := by rw [hbom]; decide
      by_cases hta' : ta = []
      · rw [if_pos (hthree.mpr (by rw [hnone.mpr hta', hl])), if_pos hbom, if_pos ⟨hta', hbom⟩,
          hout, hta']
        rfl
      · rw [if_neg (fun h => hta' (hnone.mp (by have := hthree.mp h; omega))),
          if_neg (fun h => hta' h.1), hall]
    · rw [if_neg hbom, ite_self, if_neg (fun h => hbom h.2), hall]

/-! ## One call -/

variable {st : ConverterState Bytes} {p x q : Bytes} {ts ts' : List Char}

/-- Errors are not taken back. -/
theorem call_mono (x : Bytes) (st : ConverterState Bytes) :
    st.invalidChars ≤ (convertToUnicodeState x st).2.invalidChars := by
  rw [convertToUnicodeState]
  simp only
  split
  · exact le_refl _
  · exact Nat.le_add_right _ _

/-- A character that is taken for a surrogate is invalid when it is complete. -/
theorem call_bad (h : Holds st p) (hcut : Cut p (ts ++ ts'))
    (hx : p ++ x = utf8 ts ++ q) (hbad : ∃ c ∈ ts, Mistaken c) :
    st.invalidChars < (convertToUnicodeState x st).2.invalidChars := by
  rw [convertToUnicodeState]
  simp only [h.remaining]
  generalize (if st.convertInvalidToNull = true then (0 : UInt16) else replacement) = r
  by_cases hp : p = []
  · subst hp
    rw [List.nil_append] at hx
    simp only [List.length_nil, ne_eq, not_true_eq_false, if_false]
    have hloop := decodeLoop_looped r x.length x.length
      ⟨[], x, x.length, st.ignoreHeader, 0⟩ (le_refl _)
    rw [hloop.invalid]
    have hb := decodeSteps_bad (q := q) r hbad
    rw [← hx] at hb
    simp only
    omega
  · rw [if_pos (by simpa using hp)]
    obtain ⟨c, tl, rfl, hlt, hx'⟩ := exists_held hp hcut hx (by
      rintro rfl
      simp at hbad)
    rw [decodeRemaining_char r h hlt hx']
    simp only
    by_cases hm : Mistaken c
    · rw [if_pos hm, (decodeLoop_looped r _ _ _ (le_refl _)).invalid]
      simp only
      omega
    · rw [if_neg hm, (decodeLoop_looped r _ _ _ (le_refl _)).invalid]
      have hbad' : ∃ c ∈ tl, Mistaken c := by
        obtain ⟨d, hd, hm'⟩ := hbad
        rcases List.mem_cons.mp hd with rfl | hd
        · exact absurd hm' hm
        · exact ⟨d, hd, hm'⟩
      have hb := decodeSteps_bad (q := q) r hbad'
      simp only
      omega

/-- What a call does to good characters, but for the header. -/
theorem call_good (h : Holds st p) (hcut : Cut p (ts ++ ts')) (hq : Cut q ts') (hne : x ≠ [])
    (hx : p ++ x = utf8 ts ++ q) (hgood : ∀ c ∈ ts, ¬ Mistaken c) :
    Holds (convertToUnicodeState x st).2 q ∧
      (convertToUnicodeState x st).2.invalidChars = st.invalidChars ∧
      (st.ignoreHeader = true → (convertToUnicodeState x st).1 = utf16 ts ∧
        (convertToUnicodeState x st).2.ignoreHeader = true) ∧
      (st.ignoreHeader = false → p ≠ [] →
        (convertToUnicodeState x st).1 = utf16 (if ts.head? = some bom then ts.tail else ts) ∧
        (convertToUnicodeState x st).2.ignoreHeader = decide (ts ≠ [])) ∧
      (st.ignoreHeader = false → p = [] → ∃ ta tb, ts = ta ++ tb ∧ (∀ c ∈ ta, c.toNat < 0x80) ∧
        (simdDecodeAscii x.length x).src = utf8 tb ++ q ∧
        (convertToUnicodeState x st).1 =
          utf16 (if ta = [] ∧ tb.head? = some bom then tb.tail else ts) ∧
        (convertToUnicodeState x st).2.ignoreHeader = decide (tb ≠ [])) := by
  rw [convertToUnicodeState]
  simp only [h.remaining]
  generalize (if st.convertInvalidToNull = true then (0 : UInt16) else replacement) = r
  by_cases hp : p = []
  · subst hp
    rw [List.nil_append] at hx
    simp only [List.length_nil, ne_eq, not_true_eq_false, if_false]
    have hloop := decodeLoop_looped r x.length x.length
      ⟨[], x, x.length, st.ignoreHeader, 0⟩ (le_refl _)
    have hsteps : decodeSteps r x = (utf16 ts, 0, q) := by
      rw [hx, decodeSteps_good r hq hgood]
    refine ⟨holds_end ?_ ?_, ?_, fun hh => ⟨?_, ?_⟩, fun _ h => absurd h (by simp), fun hh _ => ?_⟩
    · rw [hloop.src, hsteps]
    · rw [hloop.flag, hsteps]
    · rw [hloop.invalid, hsteps]
      rfl
    · rw [hloop.dst hh, hsteps]
      rfl
    · rw [hh, Bool.true_or]
    · have hlen : x.length = x.length - 1 + 1 := by
        have := List.length_pos_iff.mpr hne
        omega
      obtain ⟨ta, tb, hts, hta, hsrc, hheader, hdst⟩ :=
        decodeLoop_open r hq hx hgood hne (x.length - 1) (by omega)
      rw [← hlen] at hheader hdst
      rw [hh, Bool.false_or]
      exact ⟨ta, tb, hts, hta, hsrc, hdst, hheader⟩
  · rw [if_pos (by simpa using hp)]
    by_cases hts : ts = []
    · subst hts
      rw [utf8_nil, List.nil_append] at hx
      obtain ⟨hnone, hdata⟩ := decodeRemaining_cut r h hp hne (hx ▸ hq)
      rw [h.remaining] at hdata
      rw [hnone, hdata]
      refine ⟨⟨by rw [hx], by simp [hx]⟩, rfl, fun hh => ⟨rfl, hh⟩, fun hh _ => ⟨rfl, ?_⟩,
        fun _ h => absurd h hp⟩
      rw [hh]
      simp
    · obtain ⟨c, tl, rfl, hlt, hx'⟩ := exists_held hp hcut hx hts
      rw [List.forall_mem_cons] at hgood
      rw [decodeRemaining_char r h hlt hx', if_neg hgood.1]
      simp only
      have hloop := decodeLoop_looped r (utf8 tl ++ q).length (utf8 tl ++ q).length
        ⟨if !st.ignoreHeader then eatBom (units c) else units c, utf8 tl ++ q,
          (utf8 tl ++ q).length, true, 0⟩ (le_refl _)
      have hsteps := decodeSteps_good r hq hgood.2
      refine ⟨holds_end ?_ ?_, ?_, fun hh => ⟨?_, ?_⟩, fun hh _ => ⟨?_, ?_⟩, fun _ h => absurd h hp⟩
      · rw [hloop.src, hsteps]
      · rw [hloop.flag, hsteps]
      · rw [hloop.invalid, hsteps]
        rfl
      · rw [hloop.dst rfl, hsteps, hh]
        rfl
      · rw [hh, Bool.true_or]
      · rw [hloop.dst rfl, hsteps, hh]
        have heat := eatBom_units [] c
        rw [List.nil_append] at heat
        simp only [Bool.not_false, if_true, heat, List.head?_cons, Option.some_inj, List.tail_cons]
        split <;> simp
      · rw [hloop.headerdone rfl]
        simp

end Build

end Libpdk.Codecs.Utf8
