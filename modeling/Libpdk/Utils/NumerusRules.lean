import Libpdk.Core.Text
import Mathlib.Data.Nat.Log

/-!
# Plural rules

The rules of a language are bytes: comparisons of two or three bytes, joined by separators. What
the check accepts is the code of rules that have a meaning (`Rules.firstOf`), and the evaluator
finds the first of them that holds without reading outside of the bytes, whatever the operands
are (`numerusHelper_first`). A read outside fails, and so does a loop that has run out of fuel.
-/
namespace Libpdk.Utils.NumerusRules

def pOpMask : UInt8 := 0x07
def pNot : UInt8 := 0x08
def pMod10 : UInt8 := 0x10
def pMod100 : UInt8 := 0x20
def pLead1000 : UInt8 := 0x40
def pAnd : UInt8 := 0xFD
def pOr : UInt8 := 0xFE
def pNewRule : UInt8 := 0xFF

/-! ## The source -/

/-- The end of a comparison, where its first operand has been read.
mirrors utils/Translator.cpp:157-174 -/
def operandsEnd (rules : Bytes) (op : UInt8) (offset : Nat) : Option Nat :=
  match op.toNat with
  | 1 | 2 | 3 => some offset
  | 4 => if offset ≠ rules.length then some (offset + 1) else none
  | _ => none

/-- mirrors utils/Translator.cpp:145-184 -/
def validLoop (rules : Bytes) : Nat → Nat → Option Bool
  | 0, _ => none
  | fuel + 1, offset => do
    let opcode ← rules[offset]?
    let op := opcode &&& pOpMask
    if opcode &&& 0x80 ≠ 0 then return false
    let offset := offset + 1
    if offset = rules.length then return false
    match operandsEnd rules op (offset + 1) with
    | none => return false
    | some offset =>
      if offset = rules.length then return true
      let separator ← rules[offset]?
      if (separator = pAnd ∨ separator = pOr ∨ separator = pNewRule) ∧ offset + 1 ≠ rules.length
      then validLoop rules fuel (offset + 1)
      else return false

/-- mirrors utils/Translator.cpp:135-185 -/
def isValidNumerusRules (rules : Bytes) : Option Bool :=
  if rules.length = 0 then some true else validLoop rules (rules.length + 1) 0

/-- `while (leftOperand >= 1000)` -/
def lead1000 (leftOperand : Int) : Int :=
  if 1000 ≤ leftOperand then lead1000 (leftOperand.tdiv 1000) else leftOperand
termination_by leftOperand.toNat
decreasing_by
  rw [Int.tdiv_eq_ediv_of_nonneg (by omega)]
  omega

/-- The truth value of one comparison, and the position behind it.
mirrors utils/Translator.cpp:215-246 -/
def comparison (rules : Bytes) (n : Int) (i : Nat) : Option (Bool × Nat) := do
  let opcode ← rules[i]?
  let leftOperand :=
    if opcode &&& pMod10 ≠ 0 then n.tmod 10
    else if opcode &&& pMod100 ≠ 0 then n.tmod 100
    else if opcode &&& pLead1000 ≠ 0 then lead1000 n
    else n
  let op := opcode &&& pOpMask
  let rightOperand ← rules[i + 1]?
  let i := i + 2
  let (truthValue, i) ←
    match op.toNat with
    | 1 => some (decide (leftOperand = rightOperand.toNat), i)
    | 2 => some (decide (leftOperand < rightOperand.toNat), i)
    | 3 => some (decide (leftOperand ≤ rightOperand.toNat), i)
    | 4 => (rules[i]?).map fun top =>
      (decide (leftOperand ≥ rightOperand.toNat ∧ leftOperand ≤ top.toNat), i + 1)
    | _ => some (true, i)
  some (if opcode &&& pNot ≠ 0 then !truthValue else truthValue, i)

/-- Does a separator stand at the position? -/
def separated (rules : Bytes) (separator : UInt8) (i : Nat) : Option Bool :=
  if i = rules.length then some false else (rules[i]?).map (· == separator)

/-- Parts with separators between them; the truth values are joined. -/
def separatedLoop (rules : Bytes) (separator : UInt8) (part : Nat → Option (Bool × Nat))
    (join : Bool → Bool → Bool) : Nat → Bool → Nat → Option (Bool × Nat)
  | 0, _, _ => none
  | fuel + 1, exprTruthValue, i => do
    let (truthValue, i) ← part i
    let exprTruthValue := join exprTruthValue truthValue
    if ← separated rules separator i
    then separatedLoop rules separator part join fuel exprTruthValue (i + 1)
    else some (exprTruthValue, i)

/-- mirrors utils/Translator.cpp:212-252 -/
def andLoop (rules : Bytes) (n : Int) (i : Nat) : Option (Bool × Nat) :=
  separatedLoop rules pAnd (comparison rules n) and (rules.length + 1) true i

/-- mirrors utils/Translator.cpp:210-258 -/
def orLoop (rules : Bytes) (n : Int) (i : Nat) : Option (Bool × Nat) :=
  separatedLoop rules pOr (andLoop rules n) or (rules.length + 1) false i

/-- mirrors utils/Translator.cpp:208-267 -/
def ruleLoop (rules : Bytes) (n : Int) : Nat → Nat → Nat → Option Nat
  | 0, _, _ => none
  | fuel + 1, result, i => do
    let (orExprTruthValue, i) ← orLoop rules n i
    if orExprTruthValue then some result
    else if i = rules.length then some (result + 1)
    else ruleLoop rules n fuel (result + 1) (i + 1)

/-- mirrors utils/Translator.cpp:200-269 -/
def numerusHelper (n : Int) (rules : Bytes) : Option Nat :=
  if rules.length = 0 then some 0 else ruleLoop rules n (rules.length + 1) 0 0

/-! ## Rules and what they mean -/

/-- One thing or more. -/
structure Several (α : Type) where
  first : α
  rest : List α

namespace Several

variable {α : Type}

def toList (s : Several α) : List α := s.first :: s.rest

def cons (a : α) (s : Several α) : Several α := ⟨a, s.toList⟩

/-- The things one after the other, a separator between them. -/
def code (separator : UInt8) (f : α → Bytes) (s : Several α) : Bytes :=
  f s.first ++ s.rest.flatMap fun a => separator :: f a

theorem code_cons (separator : UInt8) (f : α → Bytes) (a : α) (s : Several α) :
    (s.cons a).code separator f = f a ++ separator :: s.code separator f := rfl

theorem code_mapFirst (separator : UInt8) (f : α → Bytes) {g : α → α} {W : Bytes}
    (hg : ∀ a, f (g a) = W ++ f a) (s : Several α) :
    code separator f ⟨g s.first, s.rest⟩ = W ++ s.code separator f := by
  rw [code, hg, List.append_assoc]
  rfl

end Several

/-- A comparison is one of the four, and its first byte is no separator. -/
structure Comparison where
  opcode : UInt8
  operand : UInt8
  top : UInt8
  valid : opcode &&& 0x80 = 0 ∧ 1 ≤ (opcode &&& pOpMask).toNat ∧ (opcode &&& pOpMask).toNat ≤ 4

namespace Comparison

def op (c : Comparison) : Nat := (c.opcode &&& pOpMask).toNat

/-- The third byte is there for `P_BETWEEN` only. -/
def bytes (c : Comparison) : Bytes :=
  if c.op = 4 then [c.opcode, c.operand, c.top] else [c.opcode, c.operand]

/-- The number that is compared: `n`, its last digits, or its leading part below 1000. -/
def left (c : Comparison) (n : Nat) : Nat :=
  if c.opcode &&& pMod10 ≠ 0 then n % 10
  else if c.opcode &&& pMod100 ≠ 0 then n % 100
  else if c.opcode &&& pLead1000 ≠ 0 then n / 1000 ^ Nat.log 1000 n
  else n

def compares (c : Comparison) (left : Nat) : Bool :=
  match c.op with
  | 1 => left = c.operand.toNat
  | 2 => left < c.operand.toNat
  | 3 => left ≤ c.operand.toNat
  | _ => c.operand.toNat ≤ left ∧ left ≤ c.top.toNat

def holds (c : Comparison) (n : Nat) : Bool :=
  if c.opcode &&& pNot ≠ 0 then !c.compares (c.left n) else c.compares (c.left n)

end Comparison

abbrev Conjunction := Several Comparison

abbrev Rule := Several Conjunction

/-- No rules, or rules with separators between them. -/
def code : List Rule → Bytes
  | [] => []
  | rule :: rules =>
    Several.code pNewRule (Several.code pOr (Several.code pAnd Comparison.bytes)) ⟨rule, rules⟩

def Conjunction.holds (c : Conjunction) (n : Nat) : Bool := c.toList.all (Comparison.holds · n)

def Rule.holds (rule : Rule) (n : Nat) : Bool := rule.toList.any (Conjunction.holds · n)

/-- The index of the first rule that holds, or the number of rules. -/
def firstOf (rules : List Rule) (n : Nat) : Nat := rules.findIdx (Rule.holds · n)

/-! ## What the check accepts -/

theorem code_and (c : Comparison) (rule : Rule) (rules : List Rule) :
    code (⟨rule.first.cons c, rule.rest⟩ :: rules) = c.bytes ++ pAnd :: code (rule :: rules) := by
  have hconj (a : Conjunction) : Several.code pAnd Comparison.bytes (a.cons c) =
      (c.bytes ++ [pAnd]) ++ a.code pAnd Comparison.bytes := by
    rw [Several.code_cons, List.append_assoc]
    rfl
  have hrule := Several.code_mapFirst pOr (Several.code pAnd Comparison.bytes) hconj
  have hrules := Several.code_mapFirst pNewRule
    (Several.code pOr (Several.code pAnd Comparison.bytes)) hrule ⟨rule, rules⟩
  rw [List.append_assoc] at hrules
  exact hrules

theorem code_or (c : Comparison) (rule : Rule) (rules : List Rule) :
    code (rule.cons ⟨c, []⟩ :: rules) = c.bytes ++ pOr :: code (rule :: rules) := by
  have hrule (a : Rule) : Several.code pOr (Several.code pAnd Comparison.bytes) (a.cons ⟨c, []⟩) =
      (c.bytes ++ [pOr]) ++ a.code pOr (Several.code pAnd Comparison.bytes) := by
    rw [Several.code_cons, Several.code, List.flatMap_nil, List.append_nil, List.append_assoc]
    rfl
  have hrules := Several.code_mapFirst pNewRule
    (Several.code pOr (Several.code pAnd Comparison.bytes)) hrule ⟨rule, rules⟩
  rw [List.append_assoc] at hrules
  exact hrules

theorem code_newRule (c : Comparison) (rule : Rule) (rules : List Rule) :
    code (⟨⟨c, []⟩, []⟩ :: rule :: rules) = c.bytes ++ pNewRule :: code (rule :: rules) := by
  simp only [code, Several.code, List.flatMap_nil, List.append_nil, List.flatMap_cons,
    List.cons_append]

theorem code_one (c : Comparison) : code [⟨⟨c, []⟩, []⟩] = c.bytes := by
  simp only [code, Several.code, List.flatMap_nil, List.append_nil]

variable {rules : Bytes}

theorem drop_of_getElem? {i : Nat} {b : UInt8} (h : rules[i]? = some b) :
    rules.drop i = b :: rules.drop (i + 1) := by
  obtain ⟨hi, rfl⟩ := List.getElem?_eq_some_iff.mp h
  exact List.drop_eq_getElem_cons hi

theorem getElem?_of_lt {i : Nat} (h : i < rules.length) : ∃ b, rules[i]? = some b :=
  ⟨_, List.getElem?_eq_getElem h⟩

theorem operandsEnd_code {offset offset' : Nat} {opcode : UInt8}
    (hopcode : rules[offset]? = some opcode) (hsign : opcode &&& 0x80 = 0)
    (hlt : offset + 1 < rules.length)
    (h : operandsEnd rules (opcode &&& pOpMask) (offset + 2) = some offset') :
    offset' ≤ rules.length ∧ ∃ c : Comparison, rules.drop offset = c.bytes ++ rules.drop offset' := by
  obtain ⟨operand, hoperand⟩ := getElem?_of_lt hlt
  have hdrop := drop_of_getElem? hopcode
  rw [drop_of_getElem? hoperand] at hdrop
  have htwo (hop : (opcode &&& pOpMask).toNat = 1 ∨ (opcode &&& pOpMask).toNat = 2 ∨
      (opcode &&& pOpMask).toNat = 3) : ∃ c : Comparison, rules.drop offset =
        c.bytes ++ rules.drop (offset + 2) := by
    refine ⟨⟨opcode, operand, 0, hsign, by omega, by omega⟩, ?_⟩
    rw [Comparison.bytes, if_neg (by simp only [Comparison.op]; omega)]
    exact hdrop
  unfold operandsEnd at h
  split at h
  · next hop => cases h; exact ⟨by omega, htwo (.inl hop)⟩
  · next hop => cases h; exact ⟨by omega, htwo (.inr (.inl hop))⟩
  · next hop => cases h; exact ⟨by omega, htwo (.inr (.inr hop))⟩
  · next hop =>
    split at h
    · next hmore =>
      cases h
      obtain ⟨top, htop⟩ := getElem?_of_lt (show offset + 2 < rules.length by omega)
      refine ⟨by omega, ⟨opcode, operand, top, hsign, by omega, by omega⟩, ?_⟩
      rw [Comparison.bytes, if_pos (by exact hop)]
      rw [drop_of_getElem? htop] at hdrop
      exact hdrop
    · cases h
  · cases h

/-- A comparison in front of accepted rules joins them by its separator. -/
theorem code_separated (c : Comparison) {separator : UInt8}
    (hsep : separator = pAnd ∨ separator = pOr ∨ separator = pNewRule) (rule : Rule)
    (rest : List Rule) :
    ∃ rule' rest', c.bytes ++ separator :: code (rule :: rest) = code (rule' :: rest') := by
  rcases hsep with rfl | rfl | rfl
  · exact ⟨_, _, (code_and c rule rest).symm⟩
  · exact ⟨_, _, (code_or c rule rest).symm⟩
  · exact ⟨_, _, (code_newRule c rule rest).symm⟩

/-- Accepted bytes are the code of rules. -/
theorem validLoop_code : ∀ fuel offset, offset < rules.length →
    validLoop rules fuel offset = some true → ∃ rule rest, rules.drop offset = code (rule :: rest)
  | 0, _, _, h => nomatch h
  | fuel + 1, offset, hlt, h => by
    obtain ⟨opcode, hopcode⟩ := getElem?_of_lt hlt
    rw [validLoop, hopcode] at h
    simp only [Option.bind_eq_bind, Option.bind_some] at h
    split at h
    · cases h
    next hsign =>
    split at h
    · cases h
    next hend =>
    split at h
    · cases h
    next offset' hoperands =>
    obtain ⟨hle, c, hc⟩ := operandsEnd_code hopcode (not_not.mp hsign) (by omega) hoperands
    split at h
    · next hall =>
      rw [hall, List.drop_length, List.append_nil] at hc
      exact ⟨_, _, hc.trans (code_one c).symm⟩
    next hall =>
    obtain ⟨separator, hseparator⟩ := getElem?_of_lt (show offset' < rules.length by omega)
    rw [hseparator, Option.bind_some] at h
    split at h
    · next hsep =>
      obtain ⟨rule, rest, hcode⟩ := validLoop_code fuel (offset' + 1) (by omega) h
      rw [drop_of_getElem? hseparator, hcode] at hc
      obtain ⟨rule', rest', hjoined⟩ := code_separated c hsep.1 rule rest
      exact ⟨rule', rest', hc.trans hjoined⟩
    · cases h

/-! ## Evaluation -/

theorem lead1000_eq (left : Nat) : lead1000 left = ↑(left / 1000 ^ Nat.log 1000 left) := by
  induction left using Nat.strong_induction_on with
  | h left ih =>
    rw [lead1000]
    by_cases hlarge : 1000 ≤ left
    · have hlog : Nat.log 1000 left = Nat.log 1000 (left / 1000) + 1 :=
        Nat.log_of_one_lt_of_le (by decide) hlarge
      rw [if_pos (by omega), Int.tdiv_eq_ediv_of_nonneg (by omega)]
      rw [show (left : Int) / 1000 = ((left / 1000 : Nat) : Int) from rfl, ih _ (by omega), hlog,
        Nat.pow_succ', Nat.div_div_eq_div_mul]
    · rw [if_neg (by omega), Nat.log_of_lt (by omega), Nat.pow_zero, Nat.div_one]

theorem left_eq (c : Comparison) (n : Nat) :
    (if c.opcode &&& pMod10 ≠ 0 then (n : Int).tmod 10
      else if c.opcode &&& pMod100 ≠ 0 then (n : Int).tmod 100
      else if c.opcode &&& pLead1000 ≠ 0 then lead1000 n else n) = c.left n := by
  unfold Comparison.left
  split
  · rfl
  split
  · rfl
  split
  · exact lead1000_eq n
  · rfl

/-- A comparison is read up to its end. -/
theorem comparison_eq (c : Comparison) (n : Nat) {i : Nat} {post : Bytes}
    (h : rules.drop i = c.bytes ++ post) :
    ∃ i', comparison rules n i = some (c.holds n, i') ∧ i' ≤ rules.length ∧
      rules.drop i' = post := by
  have hread (k : Nat) : rules[i + k]? = (c.bytes ++ post)[k]? := by
    rw [← h, List.getElem?_drop]
  have hend : i + c.bytes.length ≤ rules.length ∧ rules.drop (i + c.bytes.length) = post := by
    have hlen := congrArg List.length h
    rw [List.length_drop, List.length_append] at hlen
    have hpos : c.bytes.length ≠ 0 := by
      unfold Comparison.bytes
      split <;> exact Nat.succ_ne_zero _
    exact ⟨by omega, by rw [← List.drop_drop, h, List.drop_left]⟩
  refine ⟨_, ?_, hend⟩
  have hopcode := hread 0
  have hoperand := hread 1
  have htop := hread 2
  rw [Nat.add_zero] at hopcode
  obtain ⟨-, hlow, hhigh⟩ := c.valid
  rw [comparison]
  unfold Comparison.bytes at hopcode hoperand htop ⊢
  by_cases hfour : c.op = 4
  · rw [if_pos hfour] at hopcode hoperand htop ⊢
    simp only [hopcode, hoperand, htop, List.cons_append, List.getElem?_cons_zero,
      List.getElem?_cons_succ, Option.bind_eq_bind, Option.bind_some, left_eq]
    rw [show (c.opcode &&& pOpMask).toNat = 4 from hfour, Comparison.holds, Comparison.compares,
      hfour]
    simp
  · rw [if_neg hfour] at hopcode hoperand ⊢
    simp only [hopcode, hoperand, List.cons_append, List.getElem?_cons_zero,
      List.getElem?_cons_succ, Option.bind_eq_bind, Option.bind_some, left_eq]
    have hop : c.op = 1 ∨ c.op = 2 ∨ c.op = 3 := by
      unfold Comparison.op at hfour ⊢
      omega
    rw [Comparison.holds, Comparison.compares]
    rcases hop with hop | hop | hop
    all_goals
      rw [hop, show (c.opcode &&& pOpMask).toNat = _ from hop]
      simp [Int.ofNat_inj]

theorem separated_eq {separator : UInt8} {i : Nat} {post : Bytes} (hle : i ≤ rules.length)
    (h : rules.drop i = post) :
    separated rules separator i = some (post.head? == some separator) := by
  subst h
  rw [List.head?_drop, separated]
  split
  · next hend => rw [hend, List.getElem?_eq_none le_rfl]; rfl
  · obtain ⟨b, hb⟩ := getElem?_of_lt (show i < rules.length by omega)
    rw [hb]
    rfl

section Loops

variable {α : Type} {f : α → Bytes} {separator : UInt8} {part : Nat → Option (Bool × Nat)}
  {holds : α → Bool}

/-- A loop joins the truth values of its parts; `Behind` is what can stand behind a part. -/
theorem separatedLoop_eq (Behind : Bytes → Prop) (join : Bool → Bool → Bool)
    (hpart : ∀ a i post, Behind post → rules.drop i = f a ++ post →
      ∃ i', part i = some (holds a, i') ∧ i' ≤ rules.length ∧ rules.drop i' = post)
    (hseparator : ∀ bytes, Behind (separator :: bytes)) :
    ∀ rest a truth i fuel post, Behind post → post.head? ≠ some separator → rest.length < fuel →
      rules.drop i = Several.code separator f ⟨a, rest⟩ ++ post →
        ∃ i', separatedLoop rules separator part join fuel truth i =
            some ((a :: rest).foldl (fun truth a => join truth (holds a)) truth, i') ∧
          i' ≤ rules.length ∧ rules.drop i' = post
  | [], a, truth, i, fuel + 1, post, hbehind, hhead, _, h => by
    rw [Several.code, List.flatMap_nil, List.append_nil] at h
    obtain ⟨i', hpart', hle, hpost⟩ := hpart a i post hbehind h
    refine ⟨i', ?_, hle, hpost⟩
    rw [separatedLoop, hpart']
    simp only [Option.bind_eq_bind, Option.bind_some, separated_eq hle hpost]
    rw [if_neg (by simpa using hhead)]
    rfl
  | b :: rest, a, truth, i, fuel + 1, post, hbehind, hhead, hfuel, h => by
    rw [Several.code, List.flatMap_cons, List.append_assoc, List.append_assoc, List.cons_append]
      at h
    obtain ⟨i₁, hpart', hle, hpost⟩ := hpart a i _ (hseparator _) h
    have hnext : rules.drop (i₁ + 1) = Several.code separator f ⟨b, rest⟩ ++ post := by
      rw [← List.drop_drop, hpost, Several.code, List.append_assoc]
      rfl
    obtain ⟨i', hloop, hle', hpost'⟩ := separatedLoop_eq Behind join hpart hseparator rest b
      (join truth (holds a)) (i₁ + 1) fuel post hbehind hhead (Nat.lt_of_succ_lt_succ hfuel) hnext
    refine ⟨i', ?_, hle', hpost'⟩
    rw [separatedLoop, hpart']
    simp only [Option.bind_eq_bind, Option.bind_some, separated_eq hle hpost]
    rw [if_pos (by simp), hloop]
    rfl

theorem length_code (separator : UInt8) (f : α → Bytes) (s : Several α) :
    s.rest.length ≤ (s.code separator f).length := by
  rw [Several.code, List.length_append]
  have hrest : s.rest.length ≤ (s.rest.flatMap fun a => separator :: f a).length := by
    rw [List.length_flatMap]
    induction s.rest with
    | nil => exact Nat.zero_le _
    | cons a rest ih =>
      rw [List.map_cons, List.sum_cons, List.length_cons, List.length_cons]
      omega
  omega

theorem fuel_enough {s : Several α} {i : Nat} {post : Bytes}
    (h : rules.drop i = s.code separator f ++ post) : s.rest.length < rules.length + 1 := by
  have hlen := congrArg List.length h
  rw [List.length_drop, List.length_append] at hlen
  have hcode := length_code separator f s
  omega

end Loops

theorem foldl_and {α : Type} (p : α → Bool) (l : List α) (truth : Bool) :
    l.foldl (fun truth a => and truth (p a)) truth = (truth && l.all p) := by
  induction l generalizing truth with
  | nil => simp
  | cons a l ih => rw [List.foldl_cons, ih, List.all_cons, Bool.and_assoc]

theorem foldl_or {α : Type} (p : α → Bool) (l : List α) (truth : Bool) :
    l.foldl (fun truth a => or truth (p a)) truth = (truth || l.any p) := by
  induction l generalizing truth with
  | nil => simp
  | cons a l ih => rw [List.foldl_cons, ih, List.any_cons, Bool.or_assoc]

theorem andLoop_eq (n : Nat) (c : Conjunction) (i : Nat) (post : Bytes)
    (hpost : post.head? ≠ some pAnd)
    (h : rules.drop i = c.code pAnd Comparison.bytes ++ post) :
    ∃ i', andLoop rules n i = some (c.holds n, i') ∧ i' ≤ rules.length ∧ rules.drop i' = post := by
  obtain ⟨i', hloop, hend⟩ := separatedLoop_eq (fun _ => True) and
    (fun c _ _ _ h => comparison_eq c n h) (fun _ => trivial) c.rest c.first true i (rules.length + 1) post trivial hpost (fuel_enough h) h
  rw [foldl_and] at hloop
  exact ⟨i', hloop, hend⟩

theorem orLoop_eq (n : Nat) (rule : Rule) (i : Nat) (post : Bytes)
    (hand : post.head? ≠ some pAnd) (hor : post.head? ≠ some pOr)
    (h : rules.drop i = rule.code pOr (Several.code pAnd Comparison.bytes) ++ post) :
    ∃ i', orLoop rules n i = some (rule.holds n, i') ∧ i' ≤ rules.length ∧
      rules.drop i' = post := by
  obtain ⟨i', hloop, hend⟩ := separatedLoop_eq (fun post => post.head? ≠ some pAnd) or
    (andLoop_eq n) (fun _ => by simp [pOr, pAnd]) rule.rest rule.first false i (rules.length + 1) post hand hor (fuel_enough h) h
  rw [foldl_or] at hloop
  exact ⟨i', hloop, hend⟩

theorem ruleLoop_eq (n : Nat) : ∀ rest rule result i fuel, rest.length < fuel →
    rules.drop i = code (rule :: rest) →
      ruleLoop rules n fuel result i = some (result + firstOf (rule :: rest) n)
  | rest, rule, result, i, fuel + 1, hfuel, h => by
    have hbehind : ∃ post, rules.drop i =
        rule.code pOr (Several.code pAnd Comparison.bytes) ++ post ∧ post.head? ≠ some pAnd ∧
          post.head? ≠ some pOr ∧ (rest = [] → post = []) ∧
          (∀ rule' rest', rest = rule' :: rest' → post = pNewRule :: code (rule' :: rest')) := by
      cases rest with
      | nil => exact ⟨[], h, nofun, nofun, fun _ => rfl, nofun⟩
      | cons rule' rest' =>
        refine ⟨pNewRule :: code (rule' :: rest'), h, by simp [pNewRule, pAnd],
          by simp [pNewRule, pOr], nofun, ?_⟩
        rintro _ _ ⟨⟩
        rfl
    obtain ⟨post, hcode, hand, hor, hlast, hmore⟩ := hbehind
    obtain ⟨i', hloop, hle, hpost⟩ := orLoop_eq n rule i post hand hor hcode
    rw [ruleLoop, hloop]
    simp only [Option.bind_eq_bind, Option.bind_some, firstOf, List.findIdx_cons]
    cases hholds : rule.holds n with
    | true => rfl
    | false =>
      simp only [Bool.false_eq_true, if_false]
      cases rest with
      | nil =>
        have hend : i' = rules.length := by
          rw [hlast rfl, List.drop_eq_nil_iff] at hpost
          omega
        rw [if_pos hend]
        rfl
      | cons rule' rest' =>
        rw [hmore _ _ rfl] at hpost
        have hlt : i' ≠ rules.length := by
          rintro rfl
          rw [List.drop_length] at hpost
          cases hpost
        have hnext : rules.drop (i' + 1) = code (rule' :: rest') := by
          rw [← List.drop_drop, hpost]
          rfl
        rw [if_neg hlt, ruleLoop_eq n rest' rule' (result + 1) (i' + 1) fuel
          (Nat.lt_of_succ_lt_succ hfuel) hnext, firstOf]
        exact congrArg some (by simp only [cond_false]; omega)

/-- Rules that pass the check have a meaning, and the first of them that holds is found. -/
theorem numerusHelper_first (bytes : Bytes) (hvalid : isValidNumerusRules bytes = some true) :
    ∃ rules, bytes = code rules ∧ ∀ n : Nat, numerusHelper n bytes = some (firstOf rules n) := by
  unfold isValidNumerusRules at hvalid
  by_cases hnone : bytes.length = 0
  · refine ⟨[], List.length_eq_zero_iff.mp hnone, fun n => ?_⟩
    rw [numerusHelper, if_pos hnone]
    rfl
  · rw [if_neg hnone] at hvalid
    obtain ⟨rule, rest, hcode⟩ := validLoop_code _ 0 (by omega) hvalid
    refine ⟨rule :: rest, hcode, fun n => ?_⟩
    rw [numerusHelper, if_neg hnone, ruleLoop_eq n rest rule 0 0 (bytes.length + 1)
      (fuel_enough (s := ⟨rule, rest⟩) (hcode.trans (List.append_nil _).symm)) hcode, Nat.zero_add]

/-- `n % 10 == 253 && n % 100 != 11` or `n in 2..4`: an operand is no separator. -/
theorem numerusHelper_first_polish :
    ∃ rules, [0x11, 0xFD, 0xFD, 0x29, 11, 0xFF, 0x04, 2, 4] = code rules ∧
      numerusHelper 3 [0x11, 0xFD, 0xFD, 0x29, 11, 0xFF, 0x04, 2, 4] = some (firstOf rules 3) := by
  obtain ⟨rules, hcode, hfirst⟩ := numerusHelper_first
    [0x11, 0xFD, 0xFD, 0x29, 11, 0xFF, 0x04, 2, 4] (by decide)
  exact ⟨rules, hcode, hfirst 3⟩

end Libpdk.Utils.NumerusRules
