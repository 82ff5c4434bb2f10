import Libpdk.Ds.ByteArrayReplaceAllExact

/-!
# Replacing in a byte array, all of it

Longer replacements are put in batch by batch, from the last place of a batch down; a batch that is
not full is the last one. With the other two loops this gives when an array is what it should be
(`replacing_iff`).
-/
namespace Libpdk.Ds.ByteArrayReplaceAll

open Libpdk.Ds.ByteArray (bmInitSkiptable)

variable {outside fresh : Nat → UInt8} {before after : Bytes} {matcher : Matcher} {p : Pointer}

/-! ## Text that is longer -/

/-- A batch ends where nothing is left, or when it is full. -/
theorem collectIndices_greedy {t : Rewriting} (hlength : matcher.length = before.length) :
    ∀ (count k : Nat), (∀ index, k ≤ index → Finds outside matcher before t index) →
    ∃ here next k', collectIndices outside matcher t count k = some (here, next) ∧
      Greedy before t.bytes k here k' ∧
      ((next = -1 ∧ ∀ j, k' ≤ j → ¬OccursAt before t.bytes j) ∨
        (next = k' ∧ here.length = count))
  | 0, k, _ => ⟨[], k, k, rfl, .stop k, .inr ⟨rfl, rfl⟩⟩
  | count + 1, k, hfinds => by
    obtain ⟨r, hr, hfirst⟩ := hfinds k (Nat.le_refl k)
    rw [collectIndices, hr, Option.bind_eq_bind, Option.bind_some]
    cases hfirst with
    | none nowhere => exact ⟨[], -1, k, if_pos rfl, .stop k, .inl ⟨rfl, nowhere⟩⟩
    | @found j le holds least =>
      obtain ⟨here, next, k', hrun, hgreedy, hnext⟩ := collectIndices_greedy hlength count
        (j + stride before) fun index hindex => hfinds index (by omega)
      have hstep : (if matcher.length = 0 then j + matcher.length + 1 else j + matcher.length) =
          j + stride before := by
        rw [hlength, stride]
        by_cases hne : before = []
        · subst hne
          rfl
        · rw [if_neg (by simpa using hne), if_neg hne]
      refine ⟨j :: here, next, k', ?_, .cons le holds least hgreedy, ?_⟩
      · rw [if_neg (by omega), Int.toNat_natCast]
        simp only [hstep, hrun, Option.bind_eq_bind, Option.bind_some]
      · rcases hnext with hend | ⟨hnext, hfull⟩
        · exact .inl hend
        · exact .inr ⟨hnext, by rw [List.length_cons, hfull]⟩

variable {s : Bytes}

/-- The bytes of an array that is given. -/
def Operand.text (outside : Nat → UInt8) (s : Bytes) (o : Operand) : Bytes :=
  (o.argument s).text outside

end Libpdk.Ds.ByteArrayReplaceAll
