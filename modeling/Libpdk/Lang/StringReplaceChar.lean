import Libpdk.Lang.StringReplace

/-!
# Replacing a character

The overload for a character has a batching loop of its own. The replacement is a reference, so it
may be the string that is rewritten; its length is read again behind each batch, when it has grown.
So the search goes on at a wrong place then (`replaceChar_same`).
-/
namespace Libpdk.Lang

open Codecs.Character

/-- The replacement: another string, or the string itself. -/
inductive Replacement
  | other (units : Str)
  | self

/-- What a replacement holds while the string holds `u`. -/
def Replacement.units (u : Str) : Replacement → Str
  | other units => units
  | self => u

/-- The replacement, as a pointer and a length. -/
def Replacement.argument (s : Str) : Replacement → Argument s
  | other units => ⟨.buffer units, units.length, Nat.le_refl _⟩
  | self => ⟨.own 0, s.length, by simp⟩

/-- `getConstRawData()` -/
def Replacement.pointer : Replacement → Pointer
  | other units => .buffer units
  | self => .own 0

section

variable (b : Build) (outside fresh : Nat → UInt16) (f : CaseFolding) (cs : CaseSensitivity)

/-- `indexOf` from the first unit. -/
def unitIndex (s : Str) (ch : UInt16) : Option Int :=
  findChar b (beside s []) f cs (stringView s) ch 0

/-- mirrors lang/String.cpp:1213-1231 -/
def removeChar (s : Str) (ch : UInt16) : Option Str := do
  let idx ← unitIndex b f cs s ch
  if idx = -1 then some s
  else some (s.take idx.toNat ++ (s.drop idx.toNat).filter (charKey f cs · ≠ charKey f cs ch))

/-- mirrors lang/String.cpp:1449-1481 -/
def replaceChars (s : Str) (before after : UInt16) : Option Str :=
  if s = [] then some s
  else do
    let idx ← unitIndex b f cs s before
    if idx = -1 then some s
    else some (s.take idx.toNat ++ after :: (s.drop (idx.toNat + 1)).map fun x =>
      if charKey f cs x = charKey f cs before then after else x)

/-- The places of `cc` in a batch that has room for some, and where it ends.
mirrors lang/String.cpp:1416-1434 -/
def collectUnits (u : Str) (cc : UInt16) : Nat → Nat → Int → Option (List Nat × Int)
  | 0, _, _ => none
  | rounds + 1, room, index =>
    if room = 0 ∨ u.length ≤ index then some ([], index)
    else do
      let x ← fetch (beside u []) (stringView u) index
      if charKey f cs x = cc then do
        let (places, next) ← collectUnits u cc rounds (room - 1) (index + 1)
        some (index.toNat :: places, next)
      else collectUnits u cc rounds room (index + 1)

/-- An unsigned sum that is stored in an `int`. -/
def toInt (x : Int) : Int := (x + 2 ^ 31) % 2 ^ 32 - 2 ^ 31

/-- mirrors lang/String.cpp:1415-1445 -/
def replaceUnits (after : Replacement) (cc : UInt16) : Nat → Str → Int → Option Str
  | 0, _, _ => none
  | rounds + 1, u, index => do
    let (places, index) ← collectUnits f cs u cc (u.length + 2) 1024 index
    if places = [] then some u
    else do
      let t ← replaceHelper outside fresh ⟨u, false⟩ places 1 after.pointer (after.units u).length
      -- a length is an `int`
      if 2 ^ 31 ≤ t.units.length then none
      else
        let moved := toInt (index + places.length * (((after.units t.units).length : Int) - 1))
        if index = -1 then some t.units else replaceUnits after cc rounds t.units moved

/-- The batches end after at most some rounds.
mirrors lang/String.cpp:1404-1447 -/
def replaceChar (rounds : Nat) (s : Str) (ch : UInt16) (after : Replacement) : Option Str :=
  match after.units s with
  | [] => removeChar b f cs s ch
  | [a] => replaceChars b f cs s ch a
  | _ =>
    if s = [] then some s
    else replaceUnits outside fresh f cs after (charKey f cs ch) rounds s 0

end

section

variable {b : Build} {outside fresh : Nat → UInt16} {f : CaseFolding}

/-! ## One unit, or none -/

variable (b f) in
theorem unitIndex_first (s : Str) (ch : UInt16) :
    ∃ r, unitIndex b f .sensitive s ch = some r ∧ FirstFrom (fun i => s[i]? = some ch) 0 r := by
  obtain ⟨r, hr, hfirst⟩ := findChar_nat (beside s []) f .sensitive b (stringView s) ch 0
  refine ⟨r, hr, hfirst.congr fun j _ => ?_⟩
  have hkey : charKey f .sensitive ch = ch := rfl
  rw [hkey, charAt_sensitive, read_stringView]

/-- In front of the first one there is none. -/
theorem not_mem_of_first {s : Str} {ch : UInt16} {k : Nat}
    (least : ∀ j, 0 ≤ j → j < k → ¬s[j]? = some ch) : ch ∉ s.take k := by
  intro hmem
  obtain ⟨j, hj, hget⟩ := List.getElem_of_mem hmem
  rw [List.length_take] at hj
  refine least j (Nat.zero_le j) (by omega) ?_
  rw [List.getElem_take] at hget
  rw [← hget]
  exact List.getElem?_eq_getElem _

theorem not_mem_of_none {s : Str} {ch : UInt16} (nowhere : ∀ j, 0 ≤ j → ¬s[j]? = some ch) :
    ch ∉ s := by
  have hnot := not_mem_of_first (k := s.length) fun j hj _ => nowhere j hj
  rwa [List.take_length] at hnot

theorem flatMap_of_not_mem {c : UInt16} {after : Str} : ∀ {s : Str}, c ∉ s →
    (s.flatMap fun x => if x = c then after else [x]) = s
  | [], _ => rfl
  | x :: s, h => by
    rw [List.mem_cons, not_or] at h
    rw [List.flatMap_cons, if_neg fun hx => h.1 hx.symm, flatMap_of_not_mem h.2]
    rfl

theorem flatMap_nil_eq_filter (c : UInt16) : ∀ s : Str,
    (s.flatMap fun x => if x = c then [] else [x]) = s.filter (· ≠ c)
  | [] => rfl
  | x :: s => by
    rw [List.flatMap_cons, flatMap_nil_eq_filter c s, List.filter_cons]
    by_cases hx : x = c
    · simp [hx]
    · simp [hx]

theorem flatMap_singleton_eq_map (c a : UInt16) : ∀ s : Str,
    (s.flatMap fun x => if x = c then [a] else [x]) = s.map fun x => if x = c then a else x
  | [] => rfl
  | x :: s => by
    rw [List.flatMap_cons, flatMap_singleton_eq_map c a s, List.map_cons]
    by_cases hx : x = c
    · rw [if_pos hx, if_pos hx]
      rfl
    · rw [if_neg hx, if_neg hx]
      rfl

theorem removeChar_exact (s : Str) (c : UInt16) :
    removeChar b f .sensitive s c = some (replaceAll [c] [] s) := by
  obtain ⟨r, hr, hfirst⟩ := unitIndex_first b f s c
  rw [removeChar, hr, Option.bind_eq_bind, Option.bind_some, replaceAll_singleton]
  cases hfirst with
  | none nowhere => rw [if_pos rfl, flatMap_of_not_mem (not_mem_of_none nowhere)]
  | @found k le holds least =>
    have hsplit := congrArg (List.filter (· ≠ c)) (List.take_append_drop k s)
    rw [List.filter_append, ← flatMap_nil_eq_filter c (s.take k),
      flatMap_of_not_mem (not_mem_of_first least), ← flatMap_nil_eq_filter c s] at hsplit
    rw [if_neg (by omega), Int.toNat_natCast, ← hsplit]
    rfl

theorem replaceChars_exact (s : Str) (c a : UInt16) :
    replaceChars b f .sensitive s c a = some (replaceAll [c] [a] s) := by
  rw [replaceChars]
  by_cases hnil : s = []
  · rw [if_pos hnil, hnil]
    rfl
  obtain ⟨r, hr, hfirst⟩ := unitIndex_first b f s c
  rw [if_neg hnil, hr, Option.bind_eq_bind, Option.bind_some, replaceAll_singleton]
  cases hfirst with
  | none nowhere => rw [if_pos rfl, flatMap_of_not_mem (not_mem_of_none nowhere)]
  | @found k le holds least =>
    obtain ⟨hk, hget⟩ := List.getElem?_eq_some_iff.mp holds
    have hsplit : s = s.take k ++ c :: s.drop (k + 1) := by
      rw [← hget, ← List.drop_eq_getElem_cons hk, List.take_append_drop]
    rw [if_neg (by omega), Int.toNat_natCast]
    conv_rhs => rw [hsplit, List.flatMap_append, List.flatMap_cons, if_pos rfl,
      flatMap_of_not_mem (not_mem_of_first least), flatMap_singleton_eq_map]
    rfl

theorem not_occursAt_of_not_mem {c : UInt16} {u : Str} {k : Nat} (h : c ∉ u.drop k) :
    ∀ j, k ≤ j → ¬OccursAt [c] u j := by
  intro j hj hat
  rw [occursAt_singleton] at hat
  refine h (List.mem_iff_getElem?.mpr ⟨j - k, ?_⟩)
  rw [List.getElem?_drop, Nat.add_sub_cancel' hj, hat]

/-! ## A batch -/

/-- How many units are looked at until `room` places are found. -/
def scan (c : UInt16) : Nat → Str → Nat
  | 0, _ => 0
  | _ + 1, [] => 0
  | room + 1, x :: s => 1 + scan c (if x = c then room else room + 1) s

variable (f) in
theorem collectUnits_greedy (u : Str) (c : UInt16) : ∀ (rounds room k : Nat), k ≤ u.length →
    u.length < rounds + k → ∃ places next : _, ∃ k' : Nat,
      collectUnits f .sensitive u c rounds room k = some (places, next) ∧ next = k' ∧
      Greedy [c] u k places k' ∧ k' = k + scan c room (u.drop k) ∧ k' ≤ u.length ∧
      places.length = min room ((u.drop k).count c) ∧
      ((u.drop k).count c ≤ room → c ∉ u.drop k')
  | 0, room, k, hk, hrounds => by omega
  | rounds + 1, room, k, hk, hrounds => by
    rw [collectUnits]
    by_cases hstop : room = 0 ∨ (u.length : Int) ≤ k
    · refine ⟨[], k, k, if_pos hstop, rfl, .stop k, ?_, hk, ?_, ?_⟩
      · rcases hstop with rfl | hend
        · rw [scan, Nat.add_zero]
        · rw [List.drop_eq_nil_of_le (by omega)]
          cases room <;> rw [scan, Nat.add_zero]
      · rcases hstop with rfl | hend
        · rw [Nat.zero_min]
          rfl
        · rw [List.drop_eq_nil_of_le (by omega), List.count_nil, Nat.min_zero]
          rfl
      · intro hcount
        rcases hstop with rfl | hend
        · exact List.count_eq_zero.mp (by omega)
        · rw [List.drop_eq_nil_of_le (by omega)]
          exact List.not_mem_nil
    have hlt : k < u.length := by omega
    obtain ⟨x, hx⟩ : ∃ x, u[k]? = some x := ⟨_, List.getElem?_eq_getElem hlt⟩
    have hdrop : u.drop k = x :: u.drop (k + 1) := by
      obtain ⟨_, rfl⟩ := List.getElem?_eq_some_iff.mp hx
      exact List.drop_eq_getElem_cons hlt
    obtain ⟨room', rfl⟩ : ∃ room', room = room' + 1 := ⟨room - 1, by omega⟩
    have hsucc : (k : Int) + 1 = (k + 1 : Nat) := by omega
    have hkey : charKey f .sensitive x = x := rfl
    rw [if_neg hstop, fetch_nat, read_stringView, hx, Option.bind_eq_bind, Option.bind_some, hkey,
      hsucc, hdrop, List.count_cons, scan, Nat.add_sub_cancel, Int.toNat_natCast]
    by_cases hc : x = c
    · subst hc
      obtain ⟨places, next, k', hrun, hnext, hgreedy, hscan, hle, hlen, hnone⟩ :=
        collectUnits_greedy u x rounds room' (k + 1) (by omega) (by omega)
      refine ⟨k :: places, next, k', ?_, hnext, ?_, ?_, hle, ?_, ?_⟩
      · rw [if_pos rfl, hrun]
        rfl
      · refine .cons (Nat.le_refl k) (occursAt_singleton.mpr hx)
          (fun i hi hik => absurd hik (by omega)) ?_
        have hstride : stride [x] = 1 := by simp [stride]
        rw [hstride]
        exact hgreedy
      · rw [if_pos rfl, hscan]
        omega
      · rw [List.length_cons, hlen]
        simp only [BEq.rfl, if_true]
        omega
      · intro hcount
        simp only [BEq.rfl, if_true] at hcount
        exact hnone (by omega)
    · obtain ⟨places, next, k', hrun, hnext, hgreedy, hscan, hle, hlen, hnone⟩ :=
        collectUnits_greedy u c rounds (room' + 1) (k + 1) (by omega) (by omega)
      refine ⟨places, next, k', by rw [if_neg hc, hrun], hnext, ?_, ?_, hle, ?_, ?_⟩
      · refine hgreedy.widen (by omega) (by omega) fun i hi hik => ?_
        obtain rfl : i = k := by omega
        rw [occursAt_singleton, hx, Option.some.injEq]
        exact hc
      · rw [if_neg hc, hscan]
        omega
      · simp only [hlen, beq_iff_eq, hc, if_false, Nat.add_zero]
      · simp only [beq_iff_eq, hc, if_false, Nat.add_zero]
        exact hnone

/-- Behind the last batch nothing is looked for. -/
theorem replaceUnits_done (after : Replacement) {u : Str} {c : UInt16} {k : Nat}
    (hnone : c ∉ u.drop k) (rounds : Nat) :
    replaceUnits outside fresh f .sensitive after c (rounds + 1) u k = some u := by
  rw [replaceUnits]
  by_cases hk : k ≤ u.length
  · obtain ⟨places, next, k', hrun, -, -, -, -, hlen, -⟩ :=
      collectUnits_greedy f u c (u.length + 2) 1024 k hk (by omega)
    rw [List.count_eq_zero.mpr hnone, Nat.min_zero] at hlen
    rw [hrun, Option.bind_eq_bind, Option.bind_some]
    exact if_pos (List.length_eq_zero_iff.mp hlen)
  · have hend : (1024 : Nat) = 0 ∨ (u.length : Int) ≤ k := .inr (by omega)
    rw [collectUnits, if_pos hend]
    rfl

theorem Replacement.text_argument (s : Str) (after : Replacement) :
    (after.argument s).text outside = after.units s := by
  cases after with
  | other units => exact List.take_length
  | self => simp [argument, Argument.text, units]

theorem Replacement.usable (u : Str) (after : Replacement) :
    Usable outside ⟨u, false⟩ after.pointer (after.units u) := by
  rw [← after.text_argument u]
  cases after with
  | other units => exact (argument u (.other units)).usable
  | self => exact (argument u .self).usable

/-- Where a batch ended, and what it left. -/
structure Batch (u after : Str) (c : UInt16) (k next place : Nat) (u' : Str) : Prop where
  next_eq : next = k + scan c 1024 (u.drop k)
  next_le : next ≤ u.length
  place_eq : place = next + min 1024 ((u.drop k).count c) * (after.length - 1)
  length : u'.length + next = u.length + place
  rest : u'.drop place = u.drop next
  exact : u.take k ++ replaceTail [c] after u k = u'.take place ++ replaceTail [c] after u' place
  last : (u.drop k).count c ≤ 1024 → c ∉ u.drop next

variable (outside fresh f) in
/-- A batch that finds something is spliced. -/
theorem replaceUnits_batch (after : Replacement) {u : Str} {c : UInt16} {k : Nat}
    (hk : k ≤ u.length) (hmem : c ∈ u.drop k) (hpos : 0 < (after.units u).length) :
    ∃ next place u', Batch u (after.units u) c k next place u' ∧ k < next ∧
      ∀ rounds, replaceUnits outside fresh f .sensitive after c (rounds + 1) u k =
        if 2 ^ 31 ≤ u'.length then none
        else replaceUnits outside fresh f .sensitive after c rounds u'
          (toInt (next + (min 1024 ((u.drop k).count c) * ((after.units u').length - 1) : Nat))) := by
  obtain ⟨places, next, k', hrun, hnext, hgreedy, hscan, hle, hlen, hnone⟩ :=
    collectUnits_greedy f u c (u.length + 2) 1024 k hk (by omega)
  have hcount : 0 < (u.drop k).count c := List.count_pos_iff.mpr hmem
  have hne : places ≠ [] := by
    rintro rfl
    rw [List.length_nil] at hlen
    omega
  obtain ⟨place, hplace, hsize, hdone⟩ :=
    hgreedy.moved (after.units u) hk (by omega)
  have hroom : place = k' + places.length * ((after.units u).length - 1) := by
    obtain ⟨a, ha⟩ : ∃ a, (after.units u).length = a + 1 := ⟨_, (Nat.sub_add_cancel hpos).symm⟩
    rw [ha, List.length_singleton, Int.natCast_add, Int.natCast_one, Int.add_sub_cancel] at hplace
    rw [ha, Nat.add_sub_cancel]
    exact_mod_cast hplace.symm
  obtain ⟨u', hu'⟩ : ∃ u', u' = splice 1 (after.units u) u 0 places := ⟨_, rfl⟩
  have hspaced : Spaced u.length 1 (min k u.length) places := hgreedy.spaced
  have hhelper : replaceHelper outside fresh ⟨u, false⟩ places 1 after.pointer
      (after.units u).length = some ⟨u', true⟩ := by
    rw [hu']
    exact replaceHelper_splice (after.usable u) hne (hspaced.mono (Nat.zero_le _))
  rw [List.length_singleton, ← hu'] at hsize hdone
  have hrest : u'.drop place = u.drop k' := by
    obtain ⟨done, hsplice, -, hdonelen⟩ := hgreedy.splice (after.units u)
    rw [Nat.min_eq_left hk] at hsplice hspaced hdonelen
    have hfront : (u.take k ++ done).length = place := by
      rw [List.length_append, List.length_take_of_le hk]
      omega
    rw [List.length_singleton] at hsplice
    rw [hu', splice_skip (Nat.zero_le k) hspaced, hsplice, List.drop_zero, Nat.sub_zero,
      ← List.append_assoc, List.drop_left' hfront]
  have hgrown : 0 < (after.units u').length := by
    cases after with
    | other units => exact hpos
    | self =>
      have hsame : 0 < u.length := hpos
      show 0 < u'.length
      omega
  refine ⟨k', place, u', ⟨hscan, hle, hlen ▸ hroom, hsize, hrest, hdone, hnone⟩,
    (hgreedy.next_le.2.2 hne).1, fun rounds => ?_⟩
  have hmoved : (next + places.length * (((after.units u').length : Int) - 1)) =
      (k' + (min 1024 ((u.drop k).count c) * ((after.units u').length - 1) : Nat) : Int) := by
    rw [hnext, ← hlen, Int.natCast_mul, Int.natCast_sub hgrown]
    rfl
  rw [replaceUnits, hrun, Option.bind_eq_bind, Option.bind_some]
  simp only [if_neg hne, hhelper, Option.bind_eq_bind, Option.bind_some]
  rw [hmoved, if_neg (show next ≠ -1 by omega)]

/-! ## Another string -/

theorem length_replaceTail (c : UInt16) {after u : Str} (hpos : 0 < after.length) {k : Nat}
    (hk : k ≤ u.length) :
    (replaceTail [c] after u k).length =
      u.length - k + (u.drop k).count c * (after.length - 1) := by
  rw [replaceTail, if_pos hk, length_replaceAll_singleton c hpos, List.length_drop]

theorem toInt_of_lt {n : Nat} (h : n < 2 ^ 31) : toInt n = n := by
  rw [toInt]
  omega

variable (outside fresh f) in
/-- A replacement that does not change: each batch goes on behind what it put in. -/
theorem replaceUnits_other (c : UInt16) {after : Str} (hpos : 0 < after.length) :
    ∀ (rounds : Nat) {u : Str} {k : Nat}, k ≤ u.length → u.length < rounds + k →
      (u.take k ++ replaceTail [c] after u k).length < 2 ^ 31 →
      replaceUnits outside fresh f .sensitive (.other after) c rounds u k =
        some (u.take k ++ replaceTail [c] after u k)
  | 0, u, k, hk, hrounds, _ => by omega
  | rounds + 1, u, k, hk, hrounds, hfits => by
    by_cases hmem : c ∈ u.drop k
    · obtain ⟨next, place, u', hbatch, hlt, hrun⟩ :=
        replaceUnits_batch outside fresh f (.other after) hk hmem hpos
      have hlen := hbatch.length
      have hnext := hbatch.next_le
      have hplace : place ≤ u'.length := by omega
      have hexact : u.take k ++ replaceTail [c] after u k =
          u'.take place ++ replaceTail [c] after u' place := hbatch.exact
      rw [hexact] at hfits ⊢
      have hsize := length_replaceTail c hpos hplace
      rw [List.length_append, List.length_take_of_le hplace, hsize] at hfits
      have hsmall : ¬2 ^ 31 ≤ u'.length := by omega
      have hleft : u'.length < rounds + place := by omega
      have hmoved : toInt (next + (min 1024 ((u.drop k).count c) *
          (((Replacement.other after).units u').length - 1) : Nat)) = place := by
        have hplace_eq : next + min 1024 ((u.drop k).count c) *
          (((Replacement.other after).units u').length - 1) = place := hbatch.place_eq.symm
        rw [← Int.natCast_add, hplace_eq]
        exact toInt_of_lt (by omega)
      rw [hrun, if_neg hsmall, hmoved]
      refine replaceUnits_other c hpos rounds hplace hleft ?_
      rw [List.length_append, List.length_take_of_le hplace, hsize]
      exact hfits
    · rw [replaceUnits_done _ hmem, replaceTail_none (not_occursAt_of_not_mem hmem),
        List.take_append_drop]

/-! ## The string itself -/

/-- A batch in which the string stands for each of its own units makes it longer. -/
theorem replaceUnits_self_le {c : UInt16} : ∀ (rounds : Nat) {u r : Str} {index : Int},
    replaceUnits outside fresh f .sensitive .self c rounds u index = some r →
    0 ≤ index ∧
      u.length + min 1024 ((u.drop index.toNat).count c) * (u.length - 1) ≤ r.length
  | 0, u, r, index, h => nomatch h
  | rounds + 1, u, r, index, h => by
    by_cases hneg : index < 0
    · -- a place in front of the string
      have hgo : ¬((1024 : Nat) = 0 ∨ (u.length : Int) ≤ index) := by omega
      have hfetch : fetch (beside u []) (stringView u) index = none :=
        if_neg fun hin => absurd hin.1 (by omega)
      rw [replaceUnits, collectUnits, if_neg hgo, hfetch] at h
      cases h
    obtain ⟨k, rfl⟩ := Int.eq_ofNat_of_zero_le (Int.not_lt.mp hneg)
    refine ⟨by omega, ?_⟩
    rw [Int.toNat_natCast]
    by_cases hmem : c ∈ u.drop k
    · have hk : k < u.length := by
        by_contra hge
        rw [List.drop_eq_nil_of_le (by omega)] at hmem
        exact absurd hmem List.not_mem_nil
      obtain ⟨next, place, u', hbatch, hlt, hrun⟩ :=
        replaceUnits_batch outside fresh f .self (by omega) hmem
          (show 0 < u.length by omega)
      have hlen := hbatch.length
      have hplace := hbatch.place_eq
      have hsame : (Replacement.self.units u).length = u.length := rfl
      rw [hrun] at h
      split at h
      · cases h
      · obtain ⟨-, hgrown⟩ := replaceUnits_self_le rounds h
        rw [hsame] at hplace
        omega
    · rw [replaceUnits_done _ hmem, Option.some.injEq] at h
      rw [List.count_eq_zero.mpr hmem, Nat.min_zero, Nat.zero_mul, ← h]
      exact Nat.le_refl _

/-- The length of a string in which the string stands for each of its units `c`. -/
def grownLength (s : Str) (c : UInt16) : Nat := s.length + s.count c * (s.length - 1)

/-- Where the search goes on behind the first batch; the string has grown already. -/
def secondStart (s : Str) (c : UInt16) : Int :=
  toInt (scan c 1024 s + s.count c * (grownLength s c - 1) : Nat)

/-- How many units follow the last `c`. -/
def unitsBehind (s : Str) (c : UInt16) : Nat := s.reverse.idxOf c

/-- One batch is enough, and the place of the next one is behind the last `c` that it put in. -/
structure Settled (s : Str) (c : UInt16) : Prop where
  one : s.count c ≤ 1024
  start : 0 ≤ secondStart s c
  behind : grownLength s c ≤ secondStart s c + 2 * unitsBehind s c

theorem length_replaceAll_self {s : Str} {c : UInt16} (hpos : 0 < s.length) :
    (replaceAll [c] s s).length = grownLength s c := length_replaceAll_singleton c hpos s

theorem split_last {s : Str} {c : UInt16} (hmem : c ∈ s) :
    ∃ front back, s = front ++ c :: back ∧ c ∉ back ∧ back.length = unitsBehind s c := by
  obtain ⟨back, front, hsplit, hnot⟩ :=
    List.eq_append_cons_of_mem (List.mem_reverse.mpr hmem)
  refine ⟨front.reverse, back.reverse, ?_, by simpa using hnot, ?_⟩
  · rw [← List.reverse_reverse s, hsplit]
    simp
  · rw [unitsBehind, hsplit, List.idxOf_append_of_notMem hnot, List.idxOf_cons_self]
    simp

/-- The last `c` of the result is the last one of the last copy. -/
theorem not_mem_drop_iff {s : Str} {c : UInt16} (hmem : c ∈ s) (k : Nat) :
    c ∉ (replaceAll [c] s s).drop k ↔ grownLength s c ≤ k + 2 * unitsBehind s c := by
  obtain ⟨front, back, hs, hnot, hback⟩ := split_last hmem
  have hlen := length_replaceAll_self (c := c) (List.length_pos_of_mem hmem)
  obtain ⟨copies, hcopies⟩ : ∃ copies, copies = front.flatMap fun x => if x = c then s else [x] :=
    ⟨_, rfl⟩
  have hsplit : replaceAll [c] s s = (copies ++ front) ++ c :: (back ++ back) := by
    have hflat : (s.flatMap fun x => if x = c then s else [x]) = copies ++ (s ++ back) := by
      conv_lhs => rw [hs, List.flatMap_append, List.flatMap_cons, if_pos rfl,
        flatMap_of_not_mem hnot, ← hs, ← hcopies]
    rw [replaceAll_singleton, hflat]
    conv_lhs => rw [hs]
    simp
  rw [hsplit] at hlen ⊢
  rw [← hlen, ← hback]
  simp only [List.length_append, List.length_cons]
  by_cases hk : k ≤ (copies ++ front).length
  · have hin : c ∈ (copies ++ front ++ c :: (back ++ back)).drop k := by
      rw [List.drop_append_of_le_length hk]
      exact List.mem_append_right _ (List.mem_cons_self ..)
    rw [List.length_append] at hk
    exact ⟨fun h => absurd hin h, fun h => by omega⟩
  · obtain ⟨d, rfl⟩ : ∃ d, k = (copies ++ front).length + (d + 1) :=
      ⟨k - (copies ++ front).length - 1, by omega⟩
    have hout : c ∉ (copies ++ front ++ c :: (back ++ back)).drop
        ((copies ++ front).length + (d + 1)) := by
      rw [← List.drop_drop, List.drop_left, List.drop_succ_cons]
      intro hmem
      rcases List.mem_append.mp (List.mem_of_mem_drop hmem) with hin | hin <;> exact hnot hin
    rw [List.length_append] at hout ⊢
    exact ⟨fun _ => by omega, fun _ => hout⟩

variable (outside fresh f) in
theorem replaceUnits_self_few {s : Str} {c : UInt16} (hmem : c ∈ s) (hlong : 2 ≤ s.length)
    (hfew : s.count c ≤ 1024) (hfits : grownLength s c < 2 ^ 31) :
    (∃ rounds, replaceUnits outside fresh f .sensitive .self c rounds s 0 =
      some (replaceAll [c] s s)) ↔
    0 ≤ secondStart s c ∧ grownLength s c ≤ secondStart s c + 2 * unitsBehind s c := by
  have hlen := length_replaceAll_self (c := c) (List.length_pos_of_mem hmem)
  obtain ⟨next, place, u', hbatch, -, hrun⟩ := replaceUnits_batch outside fresh f .self
    (u := s) (k := 0) (Nat.zero_le _) hmem (show 0 < s.length by omega)
  have hwhole : u' = replaceAll [c] s s := by
    have hlast : c ∉ u'.drop place := by
      rw [hbatch.rest]
      exact hbatch.last hfew
    have hexact := hbatch.exact
    rw [replaceTail_none (not_occursAt_of_not_mem hlast), List.take_append_drop, replaceTail,
      if_pos (Nat.zero_le _)] at hexact
    exact hexact.symm
  have hstart : toInt (next + (min 1024 ((s.drop 0).count c) * (u'.length - 1) : Nat)) =
      secondStart s c := by
    rw [secondStart, hbatch.next_eq, hwhole, hlen, List.drop_zero, Nat.zero_add,
      Nat.min_eq_right hfew, Int.natCast_add]
  have hsecond : ∀ rounds, replaceUnits outside fresh f .sensitive .self c (rounds + 1) s 0 =
      replaceUnits outside fresh f .sensitive .self c rounds (replaceAll [c] s s)
        (secondStart s c) := by
    intro rounds
    have hsmall : ¬2 ^ 31 ≤ u'.length := by
      rw [hwhole, hlen]
      exact Nat.not_le.mpr hfits
    rw [← hstart, ← hwhole]
    exact (hrun rounds).trans (if_neg hsmall)
  constructor
  · rintro ⟨rounds, h⟩
    cases rounds with
    | zero => cases h
    | succ rounds =>
      rw [hsecond] at h
      obtain ⟨hpos, hgrown⟩ := replaceUnits_self_le rounds h
      obtain ⟨k, hk⟩ := Int.eq_ofNat_of_zero_le hpos
      rw [hk, Int.toNat_natCast] at hgrown
      have hnone : c ∉ (replaceAll [c] s s).drop k := by
        intro hin
        have hcount := List.count_pos_iff.mpr hin
        have hmul := Nat.mul_le_mul_right ((replaceAll [c] s s).length - 1)
          (show 1 ≤ min 1024 (((replaceAll [c] s s).drop k).count c) by omega)
        have hbig : s.length ≤ (replaceAll [c] s s).length := by
          rw [hlen, grownLength]
          omega
        omega
      rw [not_mem_drop_iff hmem] at hnone
      exact ⟨hpos, by omega⟩
  · rintro ⟨hpos, hbehind⟩
    obtain ⟨k, hk⟩ := Int.eq_ofNat_of_zero_le hpos
    have hnone : c ∉ (replaceAll [c] s s).drop k := by
      rw [not_mem_drop_iff hmem]
      omega
    exact ⟨2, by rw [hsecond 1, hk, replaceUnits_done _ hnone]⟩

/-- Where the `int` wraps, the place is in front of what the batch has not looked at. -/
theorem toInt_le_place {d : Nat} (next : Nat) (hd : d < 2 ^ 20)
    (hin : toInt (next + (1024 * (1025 * d) : Nat)) < 1 + 1025 * d) :
    toInt (next + (1024 * (1025 * d) : Nat)) ≤ next + 1024 * d := by
  rw [toInt] at hin ⊢
  omega

/-- The second batch puts in too much. -/
theorem lt_of_second {u' : Str} {c : UInt16} {n d next place k : Nat} (hmany : 1024 < n)
    (hcount : n ≤ d + 1) (hfits : d + 1 + n * d < 2 ^ 31)
    (hleft : (u'.drop place).count c + 1024 = n) (hroom : place = next + 1024 * d)
    (hsize : u'.length = 1 + 1025 * d)
    (hk : toInt (next + (1024 * (1025 * d) : Nat)) = k) (hmem : c ∈ u'.drop k) :
    d + 1 + n * d < 1 + 1025 * d + min 1024 ((u'.drop k).count c) * (1025 * d) := by
  by_contra hge
  have hpos : 0 < (u'.drop k).count c := List.count_pos_iff.mpr hmem
  have hin : k < u'.length := by
    by_contra hend
    rw [List.drop_eq_nil_of_le (by omega)] at hmem
    exact absurd hmem List.not_mem_nil
  obtain ⟨m, hm⟩ : ∃ m, m = min 1024 ((u'.drop k).count c) := ⟨_, rfl⟩
  rw [← hm] at hge
  have hsum : (1025 * (1 + m)) * d ≤ (n + 1) * d := by
    have hexpand : (1025 * (1 + m)) * d = 1025 * d + m * (1025 * d) := by
      rw [Nat.mul_add, Nat.mul_one, Nat.add_mul, Nat.mul_comm 1025 m, Nat.mul_assoc]
    rw [hexpand, Nat.add_mul]
    omega
  have hfew : 1025 * (1 + m) ≤ n + 1 := Nat.le_of_mul_le_mul_right hsum (by omega)
  have hshort : d < 2 ^ 20 := by
    have hlow : 2050 * d ≤ (n + 1) * d := Nat.mul_le_mul_right d (by omega)
    rw [Nat.add_mul] at hlow
    omega
  -- so all that is left of the first batch is found again
  have hplace : k ≤ place := by
    have hle := toInt_le_place next hshort (by rw [hk]; omega)
    rw [hk] at hle
    omega
  have hagain : (u'.drop place).count c ≤ (u'.drop k).count c :=
    (List.drop_sublist_drop_left u' hplace).count_le c
  omega

variable (outside fresh f) in
/-- With more units than a batch has room for, a second one puts in a longer text, or none. -/
theorem replaceUnits_self_many {s : Str} {c : UInt16} (hmany : 1024 < s.count c)
    (hfits : grownLength s c < 2 ^ 31) (rounds : Nat) :
    replaceUnits outside fresh f .sensitive .self c rounds s 0 ≠ some (replaceAll [c] s s) := by
  intro h
  have hcount : s.count c ≤ s.length := List.count_le_length
  have hmem : c ∈ s := List.count_pos_iff.mp (by omega)
  have hlen := length_replaceAll_self (c := c) (List.length_pos_of_mem hmem)
  obtain ⟨d, hd⟩ : ∃ d, s.length = d + 1 := ⟨s.length - 1, by omega⟩
  obtain ⟨next, place, u', hbatch, -, hrun⟩ := replaceUnits_batch outside fresh f .self
    (u := s) (k := 0) (Nat.zero_le _) hmem (show 0 < s.length by omega)
  have hroom : place = next + 1024 * d := by
    have hplace := hbatch.place_eq
    rwa [List.drop_zero, Nat.min_eq_left (by omega), show (Replacement.self.units s).length = d + 1
      from hd, Nat.add_sub_cancel] at hplace
  have hsize := hbatch.length
  have hnext := hbatch.next_le
  have hsize' : u'.length = 1 + 1025 * d := by omega
  rw [grownLength, hd, Nat.add_sub_cancel] at hfits hlen
  -- what the batch has not looked at
  have hleft : (u'.drop place).count c + 1024 = s.count c := by
    have hlength := congrArg List.length hbatch.exact
    rw [List.take_zero, List.nil_append, replaceTail, if_pos (Nat.zero_le _), List.drop_zero,
      List.length_append, List.length_take_of_le (by omega)] at hlength
    have htail := length_replaceTail c (show 0 < s.length by omega)
      (show place ≤ u'.length by omega)
    rw [hd, Nat.add_sub_cancel] at htail
    have hmul : ((u'.drop place).count c + 1024) * d = s.count c * d := by
      rw [Nat.add_mul]
      have hsame : (replaceAll [c] s s).length =
        place + (replaceTail [c] s u' place).length := hlength
      omega
    exact Nat.eq_of_mul_eq_mul_right (by omega) hmul
  cases rounds with
  | zero => cases h
  | succ rounds =>
    have hstart : toInt (next + (min 1024 ((s.drop 0).count c) *
        ((Replacement.self.units u').length - 1) : Nat)) =
        toInt (next + (1024 * (1025 * d) : Nat)) := by
      rw [List.drop_zero, Nat.min_eq_left (by omega), show (Replacement.self.units u').length =
        1 + 1025 * d from hsize', Nat.add_sub_cancel_left]
    have hzero : ((0 : Nat) : Int) = 0 := rfl
    rw [← hzero, hrun, hstart] at h
    split at h
    · cases h
    obtain ⟨hpos, hgrown⟩ := replaceUnits_self_le rounds h
    obtain ⟨k, hk⟩ := Int.eq_ofNat_of_zero_le hpos
    by_cases hsecond : c ∈ u'.drop k
    · rw [hk, Int.toNat_natCast, hlen, hsize', Nat.add_sub_cancel_left] at hgrown
      exact absurd hgrown (Nat.not_le.mpr (lt_of_second hmany (hd ▸ hcount) hfits hleft hroom hsize'
        hk hsecond))
    · cases rounds with
      | zero => cases h
      | succ rounds =>
        rw [hk, replaceUnits_done _ hsecond, Option.some.injEq] at h
        rw [← h, hsize'] at hlen
        have hmul : 1025 * d ≤ s.count c * d := Nat.mul_le_mul_right d (by omega)
        omega

theorem scan_le (c : UInt16) : ∀ (room : Nat) (s : Str), scan c room s ≤ s.length
  | 0, s => by
    rw [scan]
    exact Nat.zero_le s.length
  | _ + 1, [] => Nat.le_refl 0
  | room + 1, x :: s => by
    have hrest := scan_le c (if x = c then room else room + 1) s
    rw [scan, List.length_cons]
    omega

theorem settled_of_not_mem {s : Str} {c : UInt16} (hmem : c ∉ s)
    (hfits : s.length < 2 ^ 31) : Settled s c := by
  have hcount : s.count c = 0 := List.count_eq_zero.mpr hmem
  have hscan := scan_le c 1024 s
  have hbehind : unitsBehind s c = s.length := by
    rw [unitsBehind, List.idxOf_eq_length (by simpa using hmem), List.length_reverse]
  have hstart : secondStart s c = scan c 1024 s := by
    rw [secondStart, hcount, Nat.zero_mul]
    exact toInt_of_lt (by omega)
  refine ⟨by omega, by rw [hstart]; omega, ?_⟩
  rw [hstart, hbehind, grownLength, hcount]
  omega

end

/-! ## Both overloads -/

/-- `String(ch)` -/
def characterArgument (s : Str) (ch : UInt16) : Argument s := ⟨.buffer [ch], 1, Nat.le_refl 1⟩

/-- `replace(ch, after)` returns, with what `replace(String(ch), after)` returns. -/
def SameAsPattern (b : Build) (outside fresh : Nat → UInt16) (f : CaseFolding) (s : Str)
    (ch : UInt16) (after : Replacement) : Prop :=
  ∃ rounds, replaceChar b outside fresh f .sensitive rounds s ch after =
    replaceText outside fresh f .sensitive s (characterArgument s ch) (after.argument s)

section

variable {b : Build} {outside fresh : Nat → UInt16} {f : CaseFolding}

variable (b outside fresh f) in
theorem sameAsPattern_iff (s : Str) (c : UInt16) (after : Replacement) :
    SameAsPattern b outside fresh f s c after ↔
      ∃ rounds, replaceChar b outside fresh f .sensitive rounds s c after =
        some (replaceAll [c] (after.units s) s) := by
  rw [SameAsPattern, replaceText_of_text fresh f (show (characterArgument s c).text outside = [c] from rfl)
    (after.text_argument s)]

theorem replaceChar_self {s : Str} (hlong : 2 ≤ s.length) (c : UInt16) (rounds : Nat) :
    replaceChar b outside fresh f .sensitive rounds s c .self =
      replaceUnits outside fresh f .sensitive .self c rounds s 0 := by
  match s, hlong with
  | _ :: _ :: _, _ => rfl

theorem settled_singleton (x c : UInt16) : Settled [x] c := by
  by_cases hx : x = c
  · subst hx
    have hcount : List.count x [x] = 1 := List.count_singleton_self
    have hscan : scan x 1024 [x] = 1 := by simp [scan]
    have hstart : secondStart [x] x = 1 := by
      rw [secondStart, grownLength, hcount, hscan, List.length_singleton]
      exact toInt_of_lt (n := 1) (by omega)
    refine ⟨by omega, by omega, ?_⟩
    rw [hstart, grownLength, hcount, List.length_singleton]
    omega
  · exact settled_of_not_mem (by simpa using fun h => hx h.symm) (by simp)

variable (b outside fresh f) in
theorem replaceChar_self_iff {s : Str} {c : UInt16}
    (hfits : (replaceAll [c] s s).length < 2 ^ 31) :
    (∃ rounds, replaceChar b outside fresh f .sensitive rounds s c .self =
      some (replaceAll [c] s s)) ↔ Settled s c := by
  match s, hfits with
  | [], _ => exact ⟨fun _ => settled_of_not_mem List.not_mem_nil (by simp),
      fun _ => ⟨0, removeChar_exact [] c⟩⟩
  | [x], _ => exact ⟨fun _ => settled_singleton x c, fun _ => ⟨0, replaceChars_exact [x] c x⟩⟩
  | x :: y :: s, hfits =>
    have hlong : 2 ≤ (x :: y :: s).length := by simp
    simp only [replaceChar_self hlong]
    by_cases hmem : c ∈ x :: y :: s
    · rw [length_replaceAll_self (by simp)] at hfits
      by_cases hfew : (x :: y :: s).count c ≤ 1024
      · rw [replaceUnits_self_few outside fresh f hmem hlong hfew hfits]
        exact ⟨fun h => ⟨hfew, h.1, h.2⟩, fun h => ⟨h.start, h.behind⟩⟩
      · exact ⟨fun ⟨rounds, h⟩ =>
          absurd h (replaceUnits_self_many outside fresh f (by omega) hfits rounds),
          fun h => absurd h.one hfew⟩
    · have hsame : replaceAll [c] (x :: y :: s) (x :: y :: s) = x :: y :: s := by
        rw [replaceAll_singleton, flatMap_of_not_mem hmem]
      rw [hsame] at hfits ⊢
      exact ⟨fun _ => settled_of_not_mem hmem hfits,
        fun _ => ⟨1, replaceUnits_done (k := 0) .self hmem 0⟩⟩

end

/-- The overload for a character is the one for a string, unless the replacement is the string
itself and the search goes on at a wrong place. -/
theorem replaceChar_same (b : Build) (outside fresh : Nat → UInt16) (f : CaseFolding) (s : Str)
    (c : UInt16) (after : Replacement)
    (h : (replaceAll [c] (after.units s) s).length < 2 ^ 31) :
    SameAsPattern b outside fresh f s c after ↔ (after = .self → Settled s c) := by
  rw [sameAsPattern_iff]
  cases after with
  | other units =>
    refine ⟨fun _ => (nomatch ·), fun _ => ?_⟩
    match units, h with
    | [], _ => exact ⟨0, removeChar_exact s c⟩
    | [a], _ => exact ⟨0, replaceChars_exact s c a⟩
    | a :: a' :: units, h =>
      by_cases hnil : s = []
      · exact ⟨0, by rw [hnil]; rfl⟩
      · have hrun := replaceUnits_other outside fresh f c
          (show 0 < (a :: a' :: units).length by simp) (s.length + 1) (Nat.zero_le s.length)
          (by omega)
        rw [List.take_zero, List.nil_append, replaceTail, if_pos (Nat.zero_le _)] at hrun
        exact ⟨s.length + 1, (if_neg hnil).trans (hrun h)⟩
  | self =>
    exact (replaceChar_self_iff b outside fresh f h).trans ⟨fun hs _ => hs, fun hs => hs rfl⟩

theorem replaceChar_same_abab : (replaceAll [97] [97, 98, 97] [97, 98, 97]).length < 2 ^ 31 ∧
    (SameAsPattern sse2Build (fun _ => 0) (fun _ => 0) latin1Folding [97, 98, 97] 97 .self ↔
      (Replacement.self = .self → Settled [97, 98, 97] 97)) :=
  ⟨by decide, replaceChar_same sse2Build _ _ _ [97, 98, 97] 97 .self (by decide)⟩

/-- With more than 1024 units the string that was put in is not the one that is put in then. -/
theorem second_batch_differs :
    ¬SameAsPattern sse2Build (fun _ => 0) (fun _ => 0) latin1Folding
      (List.replicate 1025 97) 97 .self := by
  rw [sameAsPattern_iff]
  rintro ⟨rounds, h⟩
  have hlong : 2 ≤ (List.replicate 1025 (97 : UInt16)).length := by
    rw [List.length_replicate]
    omega
  have hcount : (List.replicate 1025 (97 : UInt16)).count 97 = 1025 := List.count_replicate_self
  rw [replaceChar_self hlong] at h
  refine replaceUnits_self_many (fun _ => 0) (fun _ => 0) latin1Folding
    (by omega) ?_ rounds h
  rw [grownLength, hcount, List.length_replicate]
  omega

end Libpdk.Lang
