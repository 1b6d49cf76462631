import Secp.Proofs.Hash.Drbg
import Secp.Proofs.Hash.Session

/-!
# HMAC_DRBG as it is published

The generator of NIST SP 800-90A, section 10.1.2, works on a key, a value and a counter, with data
that come as one byte string: an update takes its second step only if there are data, and the output
is cut from the row of values that the key gives. A generator in use gives the bytes of this one,
and has its key and its value, after every call of every row.
-/

namespace Secp

namespace Derivation

/-- The update: data are mixed in once, and if there are any, a second time. -/
def update (s : Derivation) (data : Bytes) : Derivation :=
  if data = [] then s.mix 0 [] else (s.mix 0 data).mix 1 data

/-- The value after a number of steps, each of which takes the keyed digest of the last. -/
def valueAfter (s : Derivation) (count : Nat) : Bytes := (Hmac.nested s.key)^[count] s.value

/-- How many values an output of a length needs. -/
def valuesFor (length : Nat) : Nat := (length + 31) / 32

/-- The first bytes of the row of values that follow the current one. -/
def output (s : Derivation) (length : Nat) : Bytes :=
  ((List.range (valuesFor length)).flatMap fun i ↦ s.valueAfter (i + 1)).take length

/-- The key with the last value that an output needs. -/
def advance (s : Derivation) (length : Nat) : Derivation :=
  ⟨s.key, s.valueAfter (valuesFor length)⟩

/-- The values that follow the first are those that follow the current one, but for one step. -/
theorem valueAfter_succ (s : Derivation) (count : Nat) :
    s.valueAfter (count + 1) = valueAfter ⟨s.key, s.candidate⟩ count :=
  Function.iterate_succ_apply _ _ _

/-- The blocks of an output are the row of values. -/
theorem blocks_eq (s : Derivation) (count : Nat) :
    Drbg.blocks s.key count s.value =
      ((List.range count).flatMap fun i ↦ s.valueAfter (i + 1), s.valueAfter count) := by
  induction count generalizing s with
  | zero => rfl
  | succ count ih =>
    have hrest := ih ⟨s.key, s.candidate⟩
    dsimp only at hrest
    have hnext : Drbg.mac s.key [s.value] = s.candidate := by
      rw [Drbg.mac_eq, List.flatten_singleton, candidate]
    rw [Drbg.blocks, hnext, hrest, List.range_succ_eq_map, List.flatMap_cons, List.flatMap_map]
    simp only [valueAfter_succ]
    rfl

/-- An update of a generator mixes in its data as one. -/
theorem update_toDrbg (s : Derivation) (counter : Nat) (config : DrbgConfig) (parts : List Bytes) :
    (s.toDrbg counter config).update parts = (s.update parts.flatten).toDrbg counter config := by
  have hany : parts.any (!·.isEmpty) = true ↔ ¬ parts.flatten = [] := by
    rw [List.any_eq_true, List.flatten_eq_nil_iff]
    simp
  rw [Drbg.update, updateRound_toDrbg, updateRound_toDrbg, update]
  by_cases hempty : parts.flatten = []
  · rw [if_pos hempty, if_neg (mt hany.mp (not_not.mpr hempty)), hempty]
  · rw [if_neg hempty, if_pos (hany.mpr hempty)]

end Derivation

/-- The published generator: the working state with a counter. -/
structure HmacDrbg where
  working : Derivation
  counter : Nat

namespace HmacDrbg

/-- Instantiate from entropy, a nonce and a personalization, all in one. -/
def instantiate (entropy nonce personalization : Bytes) : HmacDrbg :=
  ⟨Derivation.initial.update (entropy ++ nonce ++ personalization), 1⟩

/-- Mix in entropy and additional input and start counting anew. -/
def reseed (g : HmacDrbg) (entropy additional : Bytes) : HmacDrbg :=
  ⟨g.working.update (entropy ++ additional), 1⟩

/-- The working state from which an output is made: additional input is mixed in before, if there
is any. -/
def prepared (g : HmacDrbg) (additional : Bytes) : Derivation :=
  if additional = [] then g.working else g.working.update additional

/-- Generate bytes: the output, and the update that ends every request. -/
def generate (g : HmacDrbg) (length : Nat) (additional : Bytes) : Bytes × HmacDrbg :=
  let working := g.prepared additional
  (working.output length, ⟨(working.advance length).update additional, g.counter + 1⟩)

/-- What the published generator answers to a call. It refuses requests beyond those that a seed
serves, and entropy of fewer than 24 bytes; additional input that is left out is empty. -/
def answer (interval : Nat) (g : HmacDrbg) : Drbg.Call → Drbg.Answer × HmacDrbg
  | .generate length additional =>
    if interval < g.counter then (.error (.reseedRequired (g.counter - 1)), g)
    else
      let (out, next) := g.generate length (additional.getD [])
      (.ok (some out), next)
  | .reseed entropy additional =>
    if entropy.length < 24 then (.error (.insufficientEntropy entropy.length 24), g)
    else (.ok none, g.reseed entropy (additional.getD []))

/-- The generator in use that has the same key, value and counter. -/
def toDrbg (config : DrbgConfig) (g : HmacDrbg) : Drbg := g.working.toDrbg g.counter config

/-- A generator in use is seeded as the published one is. -/
theorem seed_eq {entropy : Bytes} (hlength : 24 ≤ entropy.length) (nonce personalization : Bytes)
    (config : DrbgConfig) :
    Drbg.seed entropy nonce personalization config =
      .ok ((instantiate entropy nonce personalization).toDrbg config) := by
  have hparts : [entropy, nonce, personalization].flatten =
      entropy ++ nonce ++ personalization := by
    simp only [List.flatten_cons, List.flatten_nil, List.append_nil, List.append_assoc]
  rw [Drbg.seed, Drbg.checkEntropy, Drbg.minEntropy, if_neg (Nat.not_lt.mpr hlength), Except.map]
  change Except.ok ((Derivation.initial.toDrbg 1 config).update _) = _
  rw [Derivation.update_toDrbg, hparts]
  rfl

/-- A generator in use is seeded anew as the published one is. -/
theorem reseed_toDrbg (g : HmacDrbg) (config : DrbgConfig) {entropy : Bytes}
    (hlength : 24 ≤ entropy.length) (additional : Bytes) :
    (g.toDrbg config).reseed entropy additional =
      .ok ((g.reseed entropy additional).toDrbg config) := by
  have hparts : [entropy, additional].flatten = entropy ++ additional := by
    simp only [List.flatten_cons, List.flatten_nil, List.append_nil]
  rw [Drbg.reseed, Drbg.checkEntropy, Drbg.minEntropy, if_neg (Nat.not_lt.mpr hlength), Except.map,
    toDrbg, Derivation.update_toDrbg, hparts]
  rfl

/-- A generator in use mixes in additional input before an output as the published one does. -/
theorem prepared_toDrbg (g : HmacDrbg) (config : DrbgConfig) (additional : Bytes) :
    (if additional.isEmpty then g.toDrbg config else (g.toDrbg config).update [additional]) =
      (g.prepared additional).toDrbg g.counter config := by
  rw [toDrbg, Derivation.update_toDrbg, List.flatten_singleton, prepared]
  cases additional with
  | nil => rfl
  | cons byte rest => rfl

/-- A generator in use serves a request as the published one does. -/
theorem generate_toDrbg {g : HmacDrbg} {config : DrbgConfig}
    (hserved : ¬ config.reseedInterval < g.counter) (length : Nat) (additional : Bytes) :
    (g.toDrbg config).generate length additional =
      .ok ((g.generate length additional).1, (g.generate length additional).2.toDrbg config) := by
  have hserved : ¬ (g.toDrbg config).config.reseedInterval < (g.toDrbg config).counter := hserved
  have hblocks := (g.prepared additional).blocks_eq ((length + 31) / 32)
  have hupdate := ((g.prepared additional).advance length).update_toDrbg g.counter config
    [additional]
  rw [List.flatten_singleton] at hupdate
  dsimp only [Derivation.toDrbg, Derivation.advance, Derivation.valuesFor] at hupdate
  rw [Drbg.generate, if_neg hserved, prepared_toDrbg]
  dsimp only [Derivation.toDrbg]
  rw [hblocks]
  dsimp only
  rw [hupdate]
  rfl

/-- A call does the same to both generators. -/
theorem answer_toDrbg (config : DrbgConfig) (g : HmacDrbg) (call : Drbg.Call) :
    (g.toDrbg config).answer call =
      ((g.answer config.reseedInterval call).1,
        (g.answer config.reseedInterval call).2.toDrbg config) := by
  cases call with
  | generate length additional =>
    rw [Drbg.answer_generate, answer]
    by_cases hused : config.reseedInterval < g.counter
    · have hrefused : (g.toDrbg config).generate length (additional.getD []) =
          .error (.reseedRequired (g.counter - 1)) :=
        Drbg.generate_eq_error_iff.mpr ⟨hused, rfl⟩
      rw [hrefused, if_pos hused]
    · rw [generate_toDrbg hused, if_neg hused]
  | reseed entropy additional =>
    rw [Drbg.answer_reseed, answer]
    by_cases hshort : entropy.length < 24
    · have hrefused : (g.toDrbg config).reseed entropy (additional.getD []) =
          .error (.insufficientEntropy entropy.length 24) :=
        Drbg.reseed_eq_error_iff.mpr ⟨hshort, rfl⟩
      rw [hrefused, if_pos hshort]
    · rw [reseed_toDrbg g config (Nat.not_lt.mp hshort), if_neg hshort]

end HmacDrbg

namespace Drbg

-- Powers of numbers are core's, whichever others are in scope.
attribute [local instance(2000)] instPowNat

/-- A generator in use is the published one: it is seeded from entropy of 24 bytes or more, whatever
the nonce, the personalization and the number of requests to a seed, and in every row of calls it
gives the same answers, with the same key, value and counter after each. The counter is a number of
any size; where a seed serves fewer than `2 ^ 64 - 1` requests it always fits 64 bits, so that a
counter of that width is exact. -/
theorem follows_published {entropy : Bytes} (hlength : 24 ≤ entropy.length)
    (nonce personalization : Bytes) (config : DrbgConfig) (calls : List Call) :
    let start := HmacDrbg.instantiate entropy nonce personalization
    ∃ d, seed entropy nonce personalization config = .ok d ∧ d = start.toDrbg config ∧
      record answer d calls =
        (record (HmacDrbg.answer config.reseedInterval) start calls).map
          (Entry.map (HmacDrbg.toDrbg config)) ∧
      (config.reseedInterval < 2 ^ (64 : Nat) - 1 →
        (after answer d calls).counter < 2 ^ (64 : Nat)) := by
  intro start
  have hseed := HmacDrbg.seed_eq hlength nonce personalization config
  refine ⟨start.toDrbg config, hseed, rfl, record_map (HmacDrbg.answer_toDrbg config) start calls,
    ?_⟩
  intro hinterval
  have hlimited := ((Counted.of_seed hseed).run calls).limited
  exact Nat.lt_of_le_of_lt hlimited (by omega)

/-- A request of half a digest, with the additional input `extra`. -/
theorem follows_published_vector :
    24 ≤ (List.replicate 32 0x11 : Bytes).length ∧
      ∃ d, seed (List.replicate 32 0x11) (List.replicate 32 0x22) [] = .ok d ∧
        (record answer d [.generate 16 (some "extra".toUTF8.toList)]).map (·.answer.toOption) =
          [some (some [0xd9, 0x76, 0x40, 0x19, 0x86, 0xa7, 0x5a, 0xf5, 0x72, 0x77, 0xcb, 0xee,
            0x1e, 0x49, 0x01, 0x48])] := by
  have hlength : 24 ≤ (List.replicate 32 0x11 : Bytes).length := by decide
  obtain ⟨d, hseed, -, hrecord, -⟩ := follows_published hlength (List.replicate 32 0x22) [] {}
    [.generate 16 (some "extra".toUTF8.toList)]
  refine ⟨hlength, d, hseed, ?_⟩
  rw [hrecord]
  decide +kernel

end Drbg

end Secp
