import Mathlib.Data.Fintype.EquivFin
import RayPlatform.Core.PluginRegistryRuns
import RayPlatform.Lib.WordMixing

/-!
# The hash functions on 64-bit integers

Both are permutations of the 64-bit words. `ComputeCore` hashes the numbers of `rand` into the
handles of its plugins: distinct numbers give distinct handles, so `allocatePluginHandle` draws
again only when a number came before (`allocateEach_generated`).
-/

namespace RayPlatform

open Lib.WordMixing
open Function (Injective Bijective)

def uniformHashingFunction_1_64_64 (key : UInt64) : UInt64 :=
  let key := ~~~key + key <<< 21
  let key := key ^^^ key >>> 24
  let key := (key + key <<< 3) + key <<< 8
  let key := key ^^^ key >>> 14
  let key := (key + key <<< 2) + key <<< 4
  let key := key ^^^ key >>> 28
  let key := key + key <<< 31
  key

def uniformHashingFunction_2_64_64 (key : UInt64) : UInt64 :=
  let key := ~~~key + key <<< 31
  let key := key ^^^ key >>> 14
  let key := (key + key <<< 7) + key <<< 11
  let key := key ^^^ key >>> 13
  let key := (key + key <<< 4) + key <<< 8
  let key := key ^^^ key >>> 44
  let key := key + key <<< 6
  key

/-- The number that `rand` returned is an `int`, which is widened with its sign. -/
def generatePluginHandle (randomNumber : Int32) : PluginHandle :=
  uniformHashingFunction_1_64_64 randomNumber.toInt64.toUInt64

/-! ## The hash functions are permutations -/

theorem injective_of_toBitVec {f : UInt64 → UInt64} {g : BitVec 64 → BitVec 64} (hg : Injective g)
    (hfg : ∀ key, (f key).toBitVec = g key.toBitVec) : Injective f := by
  intro key key' h
  apply UInt64.toBitVec_inj.mp
  apply hg
  rw [← hfg, ← hfg, h]

theorem bijective_of_injective {f : UInt64 → UInt64} (hf : Injective f) : Bijective f := by
  have hfinite : Finite UInt64 := Finite.of_injective UInt64.toFin fun _ _ => UInt64.toFin_inj.mp
  exact Finite.injective_iff_bijective.mp hf

theorem uniformHashingFunction_1_64_64_injective : Injective uniformHashingFunction_1_64_64 := by
  have h₁ := not_add_shiftLeft_injective (w := 64) (by decide : 0 < 21)
  have h₂ := (xor_ushiftRight_injective (by decide : 0 < 24)).comp h₁
  have h₃ := (add_shiftLeft_add_shiftLeft_injective (by decide : 0 < 3) (by decide : 0 < 8)).comp h₂
  have h₄ := (xor_ushiftRight_injective (by decide : 0 < 14)).comp h₃
  have h₅ := (add_shiftLeft_add_shiftLeft_injective (by decide : 0 < 2) (by decide : 0 < 4)).comp h₄
  have h₆ := (xor_ushiftRight_injective (by decide : 0 < 28)).comp h₅
  have h₇ := (add_shiftLeft_injective (by decide : 0 < 31)).comp h₆
  exact injective_of_toBitVec h₇ fun _ => rfl

theorem uniformHashingFunction_2_64_64_injective : Injective uniformHashingFunction_2_64_64 := by
  have h₁ := not_add_shiftLeft_injective (w := 64) (by decide : 0 < 31)
  have h₂ := (xor_ushiftRight_injective (by decide : 0 < 14)).comp h₁
  have h₃ :=
    (add_shiftLeft_add_shiftLeft_injective (by decide : 0 < 7) (by decide : 0 < 11)).comp h₂
  have h₄ := (xor_ushiftRight_injective (by decide : 0 < 13)).comp h₃
  have h₅ := (add_shiftLeft_add_shiftLeft_injective (by decide : 0 < 4) (by decide : 0 < 8)).comp h₄
  have h₆ := (xor_ushiftRight_injective (by decide : 0 < 44)).comp h₅
  have h₇ := (add_shiftLeft_injective (by decide : 0 < 6)).comp h₆
  exact injective_of_toBitVec h₇ fun _ => rfl

theorem generatePluginHandle_injective : Injective generatePluginHandle := by
  intro randomNumber randomNumber' h
  have hwide : randomNumber.toInt64 = randomNumber'.toInt64 :=
    congrArg UInt64.toInt64 (uniformHashingFunction_1_64_64_injective h)
  have hnarrow := congrArg Int64.toInt32 hwide
  rwa [Int32.toInt32_toInt64, Int32.toInt32_toInt64] at hnarrow

/-- Both hash functions are permutations of the 64-bit words, and no two numbers of `rand` have
the same handle. -/
theorem uniformHashing_permutations :
    Bijective uniformHashingFunction_1_64_64 ∧ Bijective uniformHashingFunction_2_64_64 ∧
      Injective generatePluginHandle :=
  ⟨bijective_of_injective uniformHashingFunction_1_64_64_injective,
    bijective_of_injective uniformHashingFunction_2_64_64_injective,
    generatePluginHandle_injective⟩

example : uniformHashingFunction_1_64_64 1 = 6614235796240398542 ∧
    uniformHashingFunction_2_64_64 1 = 82943964689127945 := by decide

/-! ## The handles of the plugins -/

namespace PluginRegistry

variable {η : Type} {r : PluginRegistry η}

/-- Each plugin draws one handle. -/
def allocateEach (r : PluginRegistry η) :
    List PluginHandle → Option (PluginRegistry η × List PluginHandle)
  | [] => some (r, [])
  | handle :: generated =>
      (r.allocatePluginHandle [handle]).bind fun (r, handle) =>
        (r.allocateEach generated).map fun (r, handles) => (r, handle :: handles)

theorem allocateEach_of_nodup {generated : List PluginHandle} (hnodup : generated.Nodup)
    (hnew : ∀ handle ∈ generated, r.plugins handle = none) :
    (r.allocateEach generated).map Prod.snd = some generated := by
  induction generated generalizing r with
  | nil => rfl
  | cons handle generated ih =>
      obtain ⟨hfresh, hnodup⟩ := List.nodup_cons.mp hnodup
      have hnone : ¬(r.plugins handle).isSome := by
        rw [hnew handle (List.mem_cons_self ..)]
        decide
      have hrest := ih (r := { r with
        plugins := Function.update r.plugins handle (some .constructor) }) hnodup (by
          intro handle' hmem
          have hne : handle' ≠ handle := fun h => hfresh (h ▸ hmem)
          exact (Function.update_of_ne hne _ _).trans (hnew handle' (List.mem_cons_of_mem _ hmem)))
      obtain ⟨⟨r', handles⟩, hrun, hhandles⟩ := Option.map_eq_some_iff.mp hrest
      rw [allocateEach, allocatePluginHandle, if_neg hnone, Option.bind_some]
      simp only [hrun, Option.map_some]
      exact congrArg (fun handles => some (handle :: handles)) hhandles

/-- Distinct numbers are enough: no plugin draws a second one, and the handles are distinct. -/
theorem allocateEach_generated {draws : List Int32} (hdraws : draws.Nodup)
    (hnew : ∀ randomNumber ∈ draws, r.plugins (generatePluginHandle randomNumber) = none) :
    (draws.map generatePluginHandle).Nodup ∧
      (r.allocateEach (draws.map generatePluginHandle)).map Prod.snd =
        some (draws.map generatePluginHandle) := by
  have hnodup := hdraws.map generatePluginHandle_injective
  exact ⟨hnodup, allocateEach_of_nodup hnodup (List.forall_mem_map.mpr hnew)⟩

end PluginRegistry

end RayPlatform
