import Kakure.Field
import Kakure.Lib.Pratt

/-!
# The two primes of BabyJubJub

The modulus of the coordinates and the order of the subgroup are prime.

* `prime_modulus`, `prime_subOrder` — by Lucas's test, with the large factors certified first.
-/

namespace Kakure

open Pratt

/-- `SUBORDER`. -/
def subOrder : ℕ := 2736030358979909402780800718157159386076813972158567259200215660948447373041

/-- The small factors that the certificates rest on. -/
def smallPrimes : List ℕ :=
  [2, 3, 5, 7, 11, 13, 17, 19, 23, 29, 37, 83, 107, 229, 349, 379, 521, 661, 823, 853,
    967, 983, 1061, 1637, 3691, 4139, 4999, 6323, 11003, 27743, 33409, 43189, 93001, 237073, 295049,
    336157, 513749, 1593227]

theorem prime_of_mem_smallPrimes : ∀ q ∈ smallPrimes, q.Prime := by
  norm_num [smallPrimes]

/-- The certificates of the modulus and of its large factors. -/
def modulusCertificates : List Certificate :=
  [⟨639533339, 2, [2, 229, 853, 1637]⟩,
    ⟨65865678001877903, 5, [2, 83, 379, 1637, 639533339]⟩,
    ⟨13818364434197438864469338081, 3, List.replicate 5 2 ++ [5, 823, 1593227, 65865678001877903]⟩,
    ⟨12048837557, 2, [2, 2, 7, 7, 661, 93001]⟩,
    ⟨5156902474397, 2, [2, 2, 107, 12048837557]⟩,
    ⟨1670836401704629, 2, [2, 2] ++ List.replicate 4 3 ++ [5156902474397]⟩,
    ⟨405928799, 22, [2, 11, 3691, 4999]⟩,
    ⟨bn254ScalarFieldModulus, 5,
      List.replicate 28 2 ++ [3, 3, 13, 29, 983, 11003, 237073, 405928799, 1670836401704629,
        13818364434197438864469338081]⟩]

/-- The certificates of the order and of its large factors. -/
def subOrderCertificates : List Certificate :=
  [⟨25485742523, 2, [2, 43189, 295049]⟩,
    ⟨202795150404015601, 7, List.replicate 4 2 ++ [3, 5, 5, 19, 349, 25485742523]⟩,
    ⟨431548080059745198929, 3, List.replicate 4 2 ++ [7, 19, 202795150404015601]⟩,
    ⟨32151195060611136810608359, 3, [2, 3, 3, 4139, 431548080059745198929]⟩,
    ⟨10206821, 2, [2, 2, 5, 13, 37, 1061]⟩,
    ⟨81654569, 3, [2, 2, 2, 10206821]⟩,
    ⟨27892051421815855583579, 2, [2, 23, 521, 27743, 513749, 81654569]⟩,
    ⟨1863691091902891838383581623, 5, [2, 33409, 27892051421815855583579]⟩,
    ⟨178259130663561045147472537592047227885001, 14,
      [2, 2, 2, 3, 3] ++ List.replicate 4 5 ++ [6323, 336157, 1863691091902891838383581623]⟩,
    ⟨subOrder, 31,
      List.replicate 4 2 ++ [3, 5, 11, 11, 17, 967, 32151195060611136810608359,
        178259130663561045147472537592047227885001]⟩]

theorem prime_modulus : bn254ScalarFieldModulus.Prime := by
  have hchain : Chain 254 smallPrimes modulusCertificates := by decide +kernel
  exact prime_of_chain hchain prime_of_mem_smallPrimes modulusCertificates[7] (List.getElem_mem _)

theorem prime_subOrder : subOrder.Prime := by
  have hchain : Chain 251 smallPrimes subOrderCertificates := by decide +kernel
  exact prime_of_chain hchain prime_of_mem_smallPrimes subOrderCertificates[9] (List.getElem_mem _)

instance : Fact bn254ScalarFieldModulus.Prime := ⟨prime_modulus⟩

instance : Fact subOrder.Prime := ⟨prime_subOrder⟩

end Kakure
