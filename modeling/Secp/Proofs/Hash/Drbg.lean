import Mathlib.Logic.Function.Iterate
import Secp.Proofs.Hash.Streaming

/-!
# What the generator gives

Draws from a generator form a row, and drawing until a byte string is accepted settles on the first
draw of the row that is accepted or refused. A generator goes through the pairs of a key and a value
from which RFC 6979, section 3.2, derives nonces: seeding mixes the seed in twice, and a draw of one
digest's length gives the next candidate and takes the step that follows a rejected one.
-/

namespace Secp

-- Powers of numbers are core's, whichever others are in scope.
attribute [local instance(2000)] instPowNat

/-- A row of attempts has the value for its first. -/
def Settles {β : Type} (attempt : Nat → Option β) (value : β) : Prop :=
  ∃ i, attempt i = some value ∧ ∀ j < i, attempt j = none

/-- A row whose first attempt has a value settles on that. -/
theorem settles_iff_of_zero {β : Type} {attempt : Nat → Option β} {first value : β}
    (h : attempt 0 = some first) : Settles attempt value ↔ first = value := by
  constructor
  · rintro ⟨i, hi, hearlier⟩
    cases i with
    | zero => exact Option.some.inj (h.symm.trans hi)
    | succ i =>
      have hnone := hearlier 0 i.succ_pos
      rw [h] at hnone
      cases hnone
  · rintro rfl
    exact ⟨0, h, nofun⟩

/-- A row whose first attempt has no value settles on what the others settle on. -/
theorem settles_iff_of_succ {β : Type} {attempt : Nat → Option β} {value : β}
    (h : attempt 0 = none) : Settles attempt value ↔ Settles (fun i ↦ attempt (i + 1)) value := by
  constructor
  · rintro ⟨i, hi, hearlier⟩
    cases i with
    | zero =>
      rw [h] at hi
      cases hi
    | succ i => exact ⟨i, hi, fun j hj ↦ hearlier (j + 1) (Nat.succ_lt_succ hj)⟩
  · rintro ⟨i, hi, hearlier⟩
    refine ⟨i + 1, hi, fun j hj ↦ ?_⟩
    cases j with
    | zero => exact h
    | succ j => exact hearlier j (Nat.lt_of_succ_lt_succ hj)

/-- What is made of every value is made of the one that is settled on. -/
theorem Settles.map {β γ : Type} {attempt : Nat → Option β} {value : β} (f : β → γ)
    (h : Settles attempt value) : Settles (fun i ↦ (attempt i).map f) (f value) := by
  obtain ⟨i, hi, hearlier⟩ := h
  refine ⟨i, Option.map_eq_some_iff.mpr ⟨value, hi, rfl⟩, fun j hj ↦ ?_⟩
  exact Option.map_eq_none_iff.mpr (hearlier j hj)

namespace Drbg

/-- The draw with a number, after the draws before it. -/
def drawAt (length : Nat) : Nat → Drbg → Except Error Bytes
  | 0, d => (d.generate length []).map Prod.fst
  | i + 1, d => d.generate length [] >>= fun served ↦ drawAt length i served.2

/-- What a draw settles: a refusal is final, and so is what is accepted. -/
def verdict {α : Type} (accept : Bytes → Option α) : Except Error Bytes → Option (Except Error α)
  | .error fault => some (.error fault)
  | .ok bytes => (accept bytes).map .ok

/-- Drawing until a byte string is accepted gives what the row of draws settles on. -/
theorem drawUntil_eq_iff {α : Type} {length : Nat} {accept : Bytes → Option α} {d : Drbg}
    {outcome : Except Error α} :
    d.drawUntil length accept = outcome ↔
      Settles (fun i ↦ verdict accept (d.drawAt length i)) outcome := by
  -- The loop takes its draws off the front of the row.
  fun_induction drawUntil length accept d with
  | case1 d fault hgenerate =>
    refine (settles_iff_of_zero ?_).symm
    rw [drawAt, hgenerate]
    rfl
  | case2 d out next hgenerate b haccept =>
    refine (settles_iff_of_zero ?_).symm
    rw [drawAt, hgenerate, Except.map, verdict, haccept]
    rfl
  | case3 d out next hgenerate haccept ih =>
    have hfirst : verdict accept (d.drawAt length 0) = none := by
      rw [drawAt, hgenerate, Except.map, verdict, haccept]
      rfl
    have hrest (i : Nat) : d.drawAt length (i + 1) = next.drawAt length i := by
      rw [drawAt, hgenerate]
      rfl
    rw [settles_iff_of_succ hfirst, ih]
    simp only [hrest]

/-- The keyed digest of several parts is that of all of them at once. -/
theorem mac_eq (key : Bytes) (parts : List Bytes) :
    mac key parts = Hmac.nested key parts.flatten :=
  Hmac.finish_foldl_update key parts

end Drbg

/-- The key and the value from which nonces are derived. -/
structure Derivation where
  key : Bytes
  value : Bytes

namespace Derivation

/-- The key and the value before anything is mixed in. -/
def initial : Derivation := ⟨List.replicate 32 0, List.replicate 32 1⟩

/-- Mix data in: a new key from the value, a separator and the data, and a new value under it. -/
def mix (s : Derivation) (separator : UInt8) (data : Bytes) : Derivation :=
  let key := Hmac.nested s.key (s.value ++ [separator] ++ data)
  ⟨key, Hmac.nested key s.value⟩

/-- The key and the value for a seed, which is mixed in under both separators. -/
def seeded (seed : Bytes) : Derivation := (initial.mix 0 seed).mix 1 seed

/-- The candidate, which is the next value. -/
def candidate (s : Derivation) : Bytes := Hmac.nested s.key s.value

/-- A candidate has 32 bytes. -/
@[simp] theorem length_candidate (s : Derivation) : s.candidate.length = 32 :=
  Hmac.length_nested _ _

/-- The key and the value after a rejected candidate. -/
def next (s : Derivation) : Derivation := mix ⟨s.key, s.candidate⟩ 0 []

/-- A generator that has the key and the value. -/
def toDrbg (s : Derivation) (counter : Nat) (config : DrbgConfig) : Drbg :=
  ⟨s.key, s.value, counter, config⟩

/-- A round of an update mixes the parts in as one. -/
theorem updateRound_toDrbg (s : Derivation) (counter : Nat) (config : DrbgConfig)
    (separator : UInt8) (parts : List Bytes) :
    (s.toDrbg counter config).updateRound separator parts =
      (s.mix separator parts.flatten).toDrbg counter config := by
  simp only [Drbg.updateRound, toDrbg, mix, Drbg.mac_eq, List.flatten_cons, List.flatten_nil,
    List.append_nil, List.append_assoc]

/-- A generator that is seeded without a personalization has the key and the value for the entropy
and the nonce. -/
theorem seed_eq {entropy : Bytes} (hlength : Drbg.minEntropy ≤ entropy.length) (nonce : Bytes)
    (config : DrbgConfig) :
    Drbg.seed entropy nonce [] config = .ok ((seeded (entropy ++ nonce)).toDrbg 1 config) := by
  have hentropy : entropy.isEmpty = false := by
    cases entropy with
    | nil => exact absurd hlength (by decide)
    | cons byte rest => rfl
  have hparts : [entropy, nonce, []].flatten = entropy ++ nonce := by
    simp only [List.flatten_cons, List.flatten_nil, List.append_nil]
  rw [Drbg.seed, Drbg.checkEntropy, if_neg (Nat.not_lt.mpr hlength), Except.map]
  change Except.ok ((initial.toDrbg 1 config).update _) = _
  rw [Drbg.update, updateRound_toDrbg, updateRound_toDrbg, hparts, List.any_cons, hentropy]
  rfl

/-- A draw of one digest's length gives the candidate and leaves what follows a rejected one. -/
theorem generate_toDrbg {s : Derivation} {counter : Nat} {config : DrbgConfig}
    (hcounter : counter ≤ config.reseedInterval) :
    (s.toDrbg counter config).generate 32 [] =
      .ok (s.candidate, s.next.toDrbg (counter + 1) config) := by
  have hserved : ¬ (s.toDrbg counter config).config.reseedInterval <
      (s.toDrbg counter config).counter := Nat.not_lt.mpr hcounter
  have hblock : Drbg.blocks s.key ((32 + 31) / 32) s.value = (s.candidate, s.candidate) := by
    change Drbg.blocks s.key 1 s.value = _
    simp only [Drbg.blocks, Drbg.mac_eq, List.flatten_cons, List.flatten_nil, List.append_nil]
    rfl
  have hupdate : Drbg.update ⟨s.key, s.candidate, counter, config⟩ [[]] =
      s.next.toDrbg counter config := by
    change (toDrbg ⟨s.key, s.candidate⟩ counter config).update [[]] = _
    rw [Drbg.update, updateRound_toDrbg]
    rfl
  have hwhole : s.candidate.take 32 = s.candidate :=
    List.take_of_length_le (Nat.le_of_eq s.length_candidate)
  rw [Drbg.generate, if_neg hserved]
  simp only [List.isEmpty_nil, if_true, toDrbg]
  rw [hblock]
  dsimp only
  rw [hupdate, hwhole]
  rfl

/-- A generator whose seed is used up refuses. -/
theorem generate_toDrbg_of_lt {s : Derivation} {counter : Nat} {config : DrbgConfig}
    (hcounter : config.reseedInterval < counter) :
    (s.toDrbg counter config).generate 32 [] = .error (.reseedRequired (counter - 1)) :=
  if_pos hcounter

/-- The draws from a generator are the candidates, until its seed is used up. -/
theorem drawAt_toDrbg (s : Derivation) {counter : Nat} {config : DrbgConfig}
    (hcounter : counter ≤ config.reseedInterval + 1) (i : Nat) :
    (s.toDrbg counter config).drawAt 32 i =
      if counter + i ≤ config.reseedInterval then .ok (next^[i] s).candidate
      else .error (.reseedRequired config.reseedInterval) := by
  -- A draw counts one request and leaves one draw less to make, so the bound is the same one.
  induction i generalizing s counter with
  | zero =>
    rw [Drbg.drawAt]
    rcases Nat.le_or_eq_of_le_succ hcounter with hserved | rfl
    · rw [generate_toDrbg hserved, if_pos (by omega)]
      rfl
    · rw [generate_toDrbg_of_lt (Nat.lt_succ_self _), if_neg (by omega)]
      rfl
  | succ i ih =>
    rw [Drbg.drawAt]
    rcases Nat.le_or_eq_of_le_succ hcounter with hserved | rfl
    · have hnext : counter + (i + 1) = counter + 1 + i := by omega
      rw [generate_toDrbg hserved, hnext, Function.iterate_succ_apply]
      exact ih s.next (Nat.succ_le_succ hserved)
    · rw [generate_toDrbg_of_lt (Nat.lt_succ_self _), if_neg (by omega)]
      rfl

end Derivation

end Secp
