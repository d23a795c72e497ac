import Coinkit.Util.Basic
import Coinkit.Lib.Base64
import Coinkit.Lib.Bytes
import Mathlib.Data.List.Sort
import Mathlib.Data.List.AList
import Mathlib.Data.String.Basic

/-!
# Seeded ordering

`consensus/seed_sort.go`. A nomination state waits for its turn to nominate
according to its position in the quorum members sorted by a seeded hash.

`HashString` calls `h.Sum([]byte(x))` on a fresh SHA3-512 state. `Sum`
APPENDS the digest of what was written (nothing) to its argument, so the
"hash" is the base64 of `x`'s bytes followed by the digest of the empty
input. SHA3 itself is not under `src/`: it is the parameter `sha3`, the digest
of a byte list.

## What is proved

That suffix is the same for every input, and base64 and the seed prefix are
injective, so distinct inputs have distinct hashes whatever `sha3` is
(`hashString_seed_injective`). The map from hashes back to inputs then loses
nothing: every input is found under its own hash (`lookup_seedMap`), and
`SeedSort` is the sorted hashes read back through it. So it returns a
permutation of its input, duplicates with their multiplicity
(`seedSort_perm`), and inputs that are permutations of each other sort to the
same list (`seedSort_eq_of_perm`), since the sorted hashes are the one sorted
list of the same hashes.
-/

set_option autoImplicit false

namespace Coinkit.Consensus

variable (sha3 : List UInt8 → List UInt8)

/-- `HashString(x)`: base64 of `x ++ sha3("")`. -/
def hashString (x : String) : String :=
  Base64.encodeToString (x.toUTF8.toList ++ sha3 [])

/-- `SeedSort(seed, input)`: the inputs in the order of their seeded hashes.
The map from hashes back to inputs keeps the last input of each hash, as the
Go map assignment does. -/
def seedSort (seed : String) (input : List String) : List String :=
  let m : AList (fun _ : String => String) :=
    input.foldl (fun m x => m.insert (hashString sha3 (seed ++ x)) x) ∅
  let keys := input.map (fun x => hashString sha3 (seed ++ x))
  (keys.insertionSort (fun a b => a ≤ b)).map (fun key => (m.lookup key).getD "")

/-- `SeedPriority(seed, input, node)`: the first index of `node` in the seeded
order, and a panic when it is not there. -/
def seedPriority (seed : String) (input : List String) (node : String) : Except Fault Int :=
  match (seedSort sha3 seed input).idxOf? node with
  | some i => pure i
  | none => .error (.panic "we have no seed priority")

/-! ## A canonical permutation -/

/-- The seeded hash tells inputs apart: base64 is injective, the digest of the empty input is
the same suffix for all, and the seed is the same prefix. -/
theorem hashString_seed_injective (seed : String) :
    Function.Injective fun x => hashString sha3 (seed ++ x) := by
  intro x y h
  have hbytes := List.append_cancel_right (Base64.encodeToString_injective h)
  have hstrings := Utf8.toUTF8_toList_injective hbytes
  exact (String.append_right_inj seed).mp hstrings

/-- Inserting inputs under their keys leaves every other key as it was. -/
theorem lookup_foldl_insert_of_ne (key : String → String) (k : String) :
    ∀ (input : List String) (m : AList (fun _ : String => String)), (∀ x ∈ input, key x ≠ k) →
      (input.foldl (fun m x => m.insert (key x) x) m).lookup k = m.lookup k
  | [], _, _ => rfl
  | y :: ys, m, h => by
    rw [List.foldl_cons, lookup_foldl_insert_of_ne key k ys _ fun x hx => h x (.tail y hx),
      AList.lookup_insert_ne (h y List.mem_cons_self).symm]

/-- With an injective key, every input is found under its own key. -/
theorem lookup_seedMap (key : String → String) (hkey : Function.Injective key) :
    ∀ (input : List String) (m : AList (fun _ : String => String)) {x : String}, x ∈ input →
      (input.foldl (fun m x => m.insert (key x) x) m).lookup (key x) = some x
  | [], _, _, hx => absurd hx List.not_mem_nil
  | y :: ys, m, x, hx => by
    rw [List.foldl_cons]
    by_cases hys : x ∈ ys
    · exact lookup_seedMap key hkey ys _ hys
    · -- `x` is the head, and no later input has its key
      have hxy : x = y := (List.mem_cons.mp hx).resolve_right hys
      subst hxy
      rw [lookup_foldl_insert_of_ne key (key x) ys _ fun z hz hzx => hys (hkey hzx ▸ hz),
        AList.lookup_insert]

section Canonical

variable (seed : String)

/-- `SeedSort`, with its two loops named: the sorted hashes, read back through the map. -/
theorem seedSort_eq (input : List String) :
    seedSort sha3 seed input =
      ((input.map fun x => hashString sha3 (seed ++ x)).insertionSort (fun a b => a ≤ b)).map
        fun key => ((input.foldl (fun (m : AList fun _ : String => String) x =>
          m.insert (hashString sha3 (seed ++ x)) x) ∅).lookup
          key).getD "" :=
  rfl

/-- Reading an input's hash back gives the input. -/
theorem seedMap_getD {input : List String} {x : String} (hx : x ∈ input) :
    ((input.foldl (fun (m : AList fun _ : String => String) x =>
          m.insert (hashString sha3 (seed ++ x)) x) ∅).lookup
      (hashString sha3 (seed ++ x))).getD "" = x := by
  rw [lookup_seedMap (fun x => hashString sha3 (seed ++ x)) (hashString_seed_injective sha3 seed)
    input ∅ hx]
  rfl

/-- `SeedSort` returns a permutation of its input, duplicates with their multiplicity. -/
theorem seedSort_perm (input : List String) : (seedSort sha3 seed input).Perm input := by
  rw [seedSort_eq]
  have hsorted := (List.perm_insertionSort (fun a b : String => a ≤ b)
    (input.map fun x => hashString sha3 (seed ++ x))).map
      fun key => ((input.foldl (fun (m : AList fun _ : String => String) x =>
          m.insert (hashString sha3 (seed ++ x)) x) ∅).lookup
        key).getD ""
  have hback : ((input.map fun x => hashString sha3 (seed ++ x)).map fun key =>
      ((input.foldl (fun (m : AList fun _ : String => String) x =>
          m.insert (hashString sha3 (seed ++ x)) x) ∅).lookup
        key).getD "") = input := by
    rw [List.map_map]
    conv_rhs => rw [← List.map_id input]
    exact List.map_congr_left fun x hx => seedMap_getD sha3 seed hx
  exact hsorted.trans (List.Perm.of_eq hback)

/-- Inputs that are permutations of each other sort to the same list: the sorted hashes are
the one sorted list of the same hashes, and each reads back to the same input. -/
theorem seedSort_eq_of_perm {l₁ l₂ : List String} (h : l₁.Perm l₂) :
    seedSort sha3 seed l₁ = seedSort sha3 seed l₂ := by
  have hkeys : (l₁.map fun x => hashString sha3 (seed ++ x)).insertionSort (fun a b => a ≤ b) =
      (l₂.map fun x => hashString sha3 (seed ++ x)).insertionSort (fun a b => a ≤ b) :=
    List.Perm.eq_of_pairwise' (List.pairwise_insertionSort _ _) (List.pairwise_insertionSort _ _)
      (((List.perm_insertionSort _ _).trans (h.map _)).trans (List.perm_insertionSort _ _).symm)
  rw [seedSort_eq, seedSort_eq, hkeys]
  apply List.map_congr_left
  intro key hkey
  obtain ⟨x, hx, rfl⟩ := List.mem_map.mp ((List.perm_insertionSort _ _).subset hkey)
  rw [seedMap_getD sha3 seed hx, seedMap_getD sha3 seed (h.mem_iff.mpr hx)]

/-- The seeded order is canonical: for every seed, `SeedSort` returns a permutation of its
input, duplicates with their multiplicity, and inputs that are permutations of each other give
the same list; so `SeedPriority` is the same for any order of the members. -/
theorem seed_sort_canonical :
    (∀ l : List String, (seedSort sha3 seed l).Perm l) ∧
    ∀ l₁ l₂ : List String, l₁.Perm l₂ →
      seedSort sha3 seed l₁ = seedSort sha3 seed l₂ ∧
        ∀ node, seedPriority sha3 seed l₁ node = seedPriority sha3 seed l₂ node := by
  refine ⟨seedSort_perm sha3 seed, fun l₁ l₂ h => ⟨seedSort_eq_of_perm sha3 seed h, fun node => ?_⟩⟩
  rw [seedPriority, seedPriority, seedSort_eq_of_perm sha3 seed h]

theorem seed_sort_canonical_swap :
    (["A", "B"] : List String).Perm ["B", "A"] ∧
      seedSort (fun _ => []) "1" ["A", "B"] = seedSort (fun _ => []) "1" ["B", "A"] :=
  ⟨List.Perm.swap _ _ _, ((seed_sort_canonical (fun _ => []) "1").2 _ _ (List.Perm.swap _ _ _)).1⟩

end Canonical

end Coinkit.Consensus
