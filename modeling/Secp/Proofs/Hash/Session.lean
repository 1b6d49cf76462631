import Secp.Hash.Session
import Secp.Proofs.Outcome

/-!
# What calls on a generator leave

A call that is refused leaves the generator as it was, and a call that is accepted gives what the
plain functions of `Drbg` give. A row of calls goes on after a refusal; its record holds what each
call was answered and the state that it left. In such a row the requests of the generator are those
that were served since the last seed, they never exceed what one seed serves, and calls that are
refused in between have no effect on the others.
-/

namespace Secp.Drbg

-- Powers of numbers are core's, whichever others are in scope.
attribute [local instance(2000)] instPowNat

namespace Session

/-- A computation that leaves the generator as it was where it is refused. -/
def allOrNothing {α : Type} (d : Drbg) : Except Error (α × Drbg) → EStateM.Result Error Drbg α
  | .ok (a, next) => .ok a next
  | .error fault => .error fault d

/-- The loop appends as many blocks as are missing, and leaves the last of them as the value. -/
theorem run_extend (length : Nat) (out : Bytes) (d : Drbg) :
    (extend length out).run d =
      .ok (out ++ (blocks d.key ((length - out.length + 31) / 32) d.value).1)
        { d with value := (blocks d.key ((length - out.length + 31) / 32) d.value).2 } := by
  fun_induction extend length out generalizing d with
  | case1 out hshort ih =>
    have hcount : (length - out.length + 31) / 32 =
        (length - (out ++ mac d.key [d.value]).length + 31) / 32 + 1 := by
      rw [List.length_append, length_mac]
      omega
    simp only [EStateM.run_bind, EStateM.run_get, EStateM.run_set, ih]
    rw [hcount, blocks, List.append_assoc]
  | case2 out hlong =>
    have hcount : (length - out.length + 31) / 32 = 0 := by omega
    rw [hcount, blocks, List.append_nil, EStateM.run_pure]

/-- Serving a request gives the generator's output, if its seed is not used up. Additional input
that is served is not empty. -/
theorem run_serve {d : Drbg} (hserved : ¬ d.config.reseedInterval < d.counter) (length : Nat)
    {additional : Option Bytes} (hfull : additional ≠ some []) :
    (serve length additional).run d =
      allOrNothing d (d.generate length (additional.getD [])) := by
  rw [Drbg.generate, if_neg hserved]
  rcases additional with _ | _ | ⟨byte, rest⟩
  · simp only [serve, EStateM.run_bind, EStateM.run_modify, EStateM.run_pure, run_extend, update,
      allOrNothing, Option.getD_none, List.isEmpty_nil, if_true, List.nil_append, List.length_nil,
      Nat.sub_zero]
  · exact absurd rfl hfull
  · simp only [serve, EStateM.run_bind, EStateM.run_modify, EStateM.run_pure, run_extend, update,
      allOrNothing, Option.getD_some, List.isEmpty_cons, Bool.false_eq_true, if_false,
      List.nil_append, List.length_nil, Nat.sub_zero]

/-- A request changes the generator only if it is served. -/
theorem run_generate (length : Nat) (additional : Option Bytes) (d : Drbg) :
    (generate length additional).run d =
      allOrNothing d (d.generate length (additional.getD [])) := by
  unfold generate
  rw [EStateM.run_bind, EStateM.run_get]
  dsimp only
  split
  · next hused =>
    rw [Drbg.generate, if_pos hused]
    rfl
  · next hserved =>
    have hfull : additional.filter (!·.isEmpty) ≠ some [] := by
      rcases additional with _ | _ | ⟨byte, rest⟩ <;> simp
    have hsame : (additional.filter (!·.isEmpty)).getD [] = additional.getD [] := by
      rcases additional with _ | _ | ⟨byte, rest⟩ <;> rfl
    rw [← hsame]
    exact run_serve hserved length hfull

/-- Seeding anew changes the generator only if the entropy is long enough. -/
theorem run_reseed (entropy : Bytes) (additional : Option Bytes) (d : Drbg) :
    (reseed entropy additional).run d =
      allOrNothing d ((d.reseed entropy (additional.getD [])).map fun next ↦ ((), next)) := by
  unfold reseed checkEntropy Drbg.reseed
  cases Drbg.checkEntropy entropy with
  | error fault => rfl
  | ok _ => rfl

end Session

/-- A generator refuses exactly when its seed is used up. -/
theorem generate_eq_error_iff {d : Drbg} {length : Nat} {additional : Bytes} {fault : Error} :
    d.generate length additional = .error fault ↔
      d.config.reseedInterval < d.counter ∧ fault = .reseedRequired d.requests := by
  unfold generate
  split
  · next hused =>
    constructor
    · intro h
      exact ⟨hused, (Except.error.inj h).symm⟩
    · rintro ⟨-, rfl⟩
      rfl
  · next hserved => exact ⟨nofun, fun h ↦ absurd h.1 hserved⟩

/-- A seed is refused exactly when it is too short. -/
theorem checkEntropy_eq_error_iff {entropy : Bytes} {fault : Error} :
    checkEntropy entropy = .error fault ↔
      entropy.length < minEntropy ∧ fault = .insufficientEntropy entropy.length minEntropy := by
  unfold checkEntropy
  split
  · next hshort =>
    constructor
    · intro h
      exact ⟨hshort, (Except.error.inj h).symm⟩
    · rintro ⟨-, rfl⟩
      rfl
  · next hlong => exact ⟨nofun, fun h ↦ absurd h.1 hlong⟩

/-- Seeding anew is refused exactly when the seed is. -/
theorem reseed_eq_error_iff {d : Drbg} {entropy additional : Bytes} {fault : Error} :
    d.reseed entropy additional = .error fault ↔
      entropy.length < minEntropy ∧ fault = .insufficientEntropy entropy.length minEntropy := by
  rw [← checkEntropy_eq_error_iff, reseed]
  cases checkEntropy entropy with
  | error short => rw [Except.map, Except.error.injEq, Except.error.injEq]
  | ok _ => exact ⟨nofun, nofun⟩

/-- An update leaves the counter and the settings. -/
theorem counter_update (d : Drbg) (parts : List Bytes) :
    (d.update parts).counter = d.counter ∧ (d.update parts).config = d.config := by
  unfold update
  dsimp only
  split
  · exact ⟨rfl, rfl⟩
  · exact ⟨rfl, rfl⟩

/-- A generator that is seeded anew starts counting at one; the settings stay. -/
theorem counter_of_reseed {d d' : Drbg} {entropy additional : Bytes}
    (h : d.reseed entropy additional = .ok d') : d'.counter = 1 ∧ d'.config = d.config := by
  obtain ⟨_, -, rfl⟩ := map_eq_ok_iff.mp h
  exact ⟨rfl, (counter_update d _).2⟩

/-- A generator that has just been seeded starts counting at one. -/
theorem counter_of_seed {entropy nonce personalization : Bytes} {config : DrbgConfig} {d : Drbg}
    (h : seed entropy nonce personalization config = .ok d) :
    d.counter = 1 ∧ d.config = config := by
  obtain ⟨_, -, rfl⟩ := map_eq_ok_iff.mp h
  exact counter_update _ _

/-! ## One call -/

/-- A request is answered with its bytes, or refused without a change. -/
theorem answer_generate (d : Drbg) (length : Nat) (additional : Option Bytes) :
    answer d (.generate length additional) =
      match d.generate length (additional.getD []) with
      | .ok (out, next) => (.ok (some out), next)
      | .error fault => (.error fault, d) := by
  rw [answer, Call.perform, EStateM.run_bind, Session.run_generate]
  cases d.generate length (additional.getD []) with
  | error fault => rfl
  | ok served => rfl

/-- A new seed is mixed in, or refused without a change. -/
theorem answer_reseed (d : Drbg) (entropy : Bytes) (additional : Option Bytes) :
    answer d (.reseed entropy additional) =
      match d.reseed entropy (additional.getD []) with
      | .ok next => (.ok none, next)
      | .error fault => (.error fault, d) := by
  rw [answer, Call.perform, EStateM.run_bind, Session.run_reseed]
  cases d.reseed entropy (additional.getD []) with
  | error fault => rfl
  | ok next => rfl

/-- What a call does: it is refused, a request is served, or a seed is mixed in. -/
theorem answer_cases (d : Drbg) (call : Call) :
    (∃ fault, answer d call = (.error fault, d)) ∨
    (∃ length additional out next, call = .generate length additional ∧
      answer d call = (.ok (some out), next) ∧
      d.counter ≤ d.config.reseedInterval ∧ next.counter = d.counter + 1 ∧
      next.config = d.config) ∨
    ∃ entropy additional next, call = .reseed entropy additional ∧
      answer d call = (.ok none, next) ∧ next.counter = 1 ∧ next.config = d.config := by
  cases call with
  | generate length additional =>
    rw [answer_generate]
    cases h : d.generate length (additional.getD []) with
    | error fault => exact .inl ⟨fault, rfl⟩
    | ok served => exact .inr (.inl ⟨_, _, served.1, served.2, rfl, rfl, counter_of_generate h⟩)
  | reseed entropy additional =>
    rw [answer_reseed]
    cases h : d.reseed entropy (additional.getD []) with
    | error fault => exact .inl ⟨fault, rfl⟩
    | ok next => exact .inr (.inr ⟨_, _, next, rfl, rfl, counter_of_reseed h⟩)

/-- A request is refused exactly when its seed is used up. -/
theorem answer_generate_eq_error_iff {d : Drbg} {length : Nat} {additional : Option Bytes}
    {fault : Error} : (answer d (.generate length additional)).1 = .error fault ↔
      d.config.reseedInterval < d.counter ∧ fault = .reseedRequired d.requests := by
  rw [← generate_eq_error_iff, answer_generate]
  cases d.generate length (additional.getD []) with
  | error fault => simp only [Except.error.injEq]
  | ok served => exact ⟨nofun, nofun⟩

/-- A new seed is refused exactly when it is too short. -/
theorem answer_reseed_eq_error_iff {d : Drbg} {entropy : Bytes} {additional : Option Bytes}
    {fault : Error} : (answer d (.reseed entropy additional)).1 = .error fault ↔
      entropy.length < minEntropy ∧ fault = .insufficientEntropy entropy.length minEntropy := by
  rw [← reseed_eq_error_iff, answer_reseed]
  cases d.reseed entropy (additional.getD []) with
  | error fault => simp only [Except.error.injEq]
  | ok next => exact ⟨nofun, nofun⟩

/-- A refused call leaves the generator as it was. -/
theorem state_of_refused {d : Drbg} {call : Call} {fault : Error}
    (h : (answer d call).1 = .error fault) : (answer d call).2 = d := by
  rcases answer_cases d call with ⟨_, hd⟩ | ⟨_, _, _, _, -, hd, -⟩ | ⟨_, _, _, -, hd, -⟩
  · rw [hd]
  · rw [hd] at h
    cases h
  · rw [hd] at h
    cases h

/-! ## Calls in a row -/

section Rows

variable {σ τ : Type}

/-- A call that has been made, with its answer and the state that it left. -/
structure Entry (σ : Type) where
  call : Call
  answer : Answer
  state : σ

/-- Make calls in a row, each on the state that the one before it left. -/
def record (answer : σ → Call → Answer × σ) (s : σ) : List Call → List (Entry σ)
  | [] => []
  | call :: calls =>
    let (given, next) := answer s call
    ⟨call, given, next⟩ :: record answer next calls

/-- The state that calls in a row leave. -/
def after (answer : σ → Call → Answer × σ) (s : σ) (calls : List Call) : σ :=
  calls.foldl (fun s call ↦ (answer s call).2) s

/-- What is recorded of a call and of those behind it. -/
theorem record_cons (answer : σ → Call → Answer × σ) (s : σ) (call : Call) (calls : List Call) :
    record answer s (call :: calls) =
      ⟨call, (answer s call).1, (answer s call).2⟩ :: record answer (answer s call).2 calls :=
  rfl

/-- What a call and those behind it leave. -/
theorem after_cons (answer : σ → Call → Answer × σ) (s : σ) (call : Call) (calls : List Call) :
    after answer s (call :: calls) = after answer (answer s call).2 calls :=
  rfl

/-- The same call and answer with another form of the state. -/
def Entry.map (f : σ → τ) (entry : Entry σ) : Entry τ := ⟨entry.call, entry.answer, f entry.state⟩

/-- Where a call does the same to two forms of the state, so does a row of calls. -/
theorem record_map {answer : σ → Call → Answer × σ} {answer' : τ → Call → Answer × τ} {f : σ → τ}
    (hanswer : ∀ s call, answer' (f s) call = ((answer s call).1, f (answer s call).2)) (s : σ)
    (calls : List Call) :
    record answer' (f s) calls = (record answer s calls).map (Entry.map f) := by
  induction calls generalizing s with
  | nil => rfl
  | cons call calls ih =>
    rw [record_cons, hanswer, record_cons, List.map_cons, ← ih]
    rfl

/-- A call that was not refused. -/
def Entry.accepted (entry : Entry σ) : Bool := entry.answer.isOk

/-- A request that was served. -/
def Entry.isServed (entry : Entry σ) : Bool :=
  match entry.call with
  | .generate .. => entry.accepted
  | .reseed .. => false

/-- A seed that was mixed in. -/
def Entry.isSeed (entry : Entry σ) : Bool :=
  match entry.call with
  | .generate .. => false
  | .reseed .. => entry.accepted

/-- How many requests were served since a seed was last mixed in, or from the start if none was. -/
def servedSinceSeed (entries : List (Entry σ)) : Nat :=
  (entries.reverse.takeWhile (!·.isSeed)).countP (·.isServed)

/-- A seed starts the count anew, and a request that is served counts. -/
theorem servedSinceSeed_concat (entries : List (Entry σ)) (entry : Entry σ) :
    servedSinceSeed (entries ++ [entry]) =
      if entry.isSeed then 0
      else servedSinceSeed entries + if entry.isServed then 1 else 0 := by
  unfold servedSinceSeed
  rw [List.reverse_append, List.reverse_singleton, List.singleton_append, List.takeWhile_cons]
  cases entry.isSeed with
  | true => rfl
  | false => exact List.countP_cons

/-- A row of calls with others in between, all of which are refused. -/
inductive Padded (answer : σ → Call → Answer × σ) : σ → List Call → List Call → Prop where
  | nil (s : σ) : Padded answer s [] []
  | same {s : σ} {calls padded : List Call} (call : Call)
    (rest : Padded answer (answer s call).2 calls padded) :
    Padded answer s (call :: calls) (call :: padded)
  | refused {s : σ} {calls padded : List Call} {call : Call} {fault : Error}
    (hrefused : (answer s call).1 = .error fault)
    (rest : Padded answer (answer s call).2 calls padded) :
    Padded answer s calls (call :: padded)

end Rows

/-- The calls of a row are answered in the same way with refused calls in between. -/
theorem Padded.sublist {s : Drbg} {calls padded : List Call} (h : Padded answer s calls padded) :
    (record answer s calls).Sublist (record answer s padded) := by
  induction h with
  | nil s => exact List.nil_sublist _
  | same call rest ih => exact ih.cons_cons _
  | refused hrefused rest ih =>
    rw [state_of_refused hrefused] at ih
    rw [record_cons, state_of_refused hrefused]
    exact ih.cons _

/-- With refused calls in between, a row of calls gives nothing else, and leaves the same
generator. -/
theorem Padded.same_outputs {s : Drbg} {calls padded : List Call}
    (h : Padded answer s calls padded) :
    (record answer s padded).filter Entry.accepted = (record answer s calls).filter Entry.accepted ∧
      after answer s padded = after answer s calls := by
  induction h with
  | nil s => exact ⟨rfl, rfl⟩
  | same call rest ih =>
    refine ⟨?_, ih.2⟩
    rw [record_cons, record_cons, List.filter_cons, List.filter_cons, ih.1]
  | refused hrefused rest ih =>
    -- The refused call is recorded but not accepted, and the others go on from the same state.
    rw [state_of_refused hrefused] at ih
    constructor
    · rw [record_cons, List.filter_cons, state_of_refused hrefused, ih.1, Entry.accepted, hrefused]
      rfl
    · rw [after_cons, state_of_refused hrefused, ih.2]

/-- A generator that counts the requests of its seed, of which there are no more than it serves. -/
structure Counted (config : DrbgConfig) (entries : List (Entry Drbg)) (d : Drbg) : Prop where
  settings : d.config = config
  counter : d.counter = servedSinceSeed entries + 1
  limited : d.counter ≤ config.reseedInterval + 1

namespace Counted

variable {config : DrbgConfig} {entries : List (Entry Drbg)} {d : Drbg}

/-- A generator that has just been seeded counts no requests. -/
theorem of_seed {entropy nonce personalization : Bytes}
    (h : seed entropy nonce personalization config = .ok d) : Counted config [] d := by
  obtain ⟨hcounter, hconfig⟩ := counter_of_seed h
  refine ⟨hconfig, hcounter, ?_⟩
  rw [hcounter]
  exact Nat.le_add_left _ _

/-- The requests are one less than the counter. -/
theorem requests_eq (h : Counted config entries d) : d.requests = servedSinceSeed entries := by
  rw [requests, h.counter, Nat.add_sub_cancel]

/-- A seed is used up when all its requests have been served. -/
theorem used_up_iff (h : Counted config entries d) :
    d.config.reseedInterval < d.counter ↔ config.reseedInterval ≤ d.requests := by
  rw [h.settings, h.requests_eq, h.counter, Nat.lt_succ_iff]

/-- A call is counted if it has to be. -/
theorem step (h : Counted config entries d) (call : Call) :
    Counted config (entries ++ [⟨call, (answer d call).1, (answer d call).2⟩])
      (answer d call).2 := by
  rcases answer_cases d call with ⟨fault, hd⟩ |
    ⟨_, _, _, next, rfl, hd, hserved, hcounter, hsettings⟩ |
    ⟨_, _, next, rfl, hd, hcounter, hsettings⟩
  · -- The call was refused: nothing is counted and nothing has changed.
    have hcount : servedSinceSeed (entries ++ [⟨call, .error fault, d⟩]) =
        servedSinceSeed entries := by
      rw [servedSinceSeed_concat]
      cases call <;> rfl
    rw [hd]
    exact ⟨h.settings, hcount ▸ h.counter, h.limited⟩
  · -- A request was served.
    rw [h.settings] at hserved
    rw [hd]
    refine ⟨hsettings.trans h.settings, ?_, hcounter ▸ Nat.succ_le_succ hserved⟩
    rw [hcounter, h.counter, servedSinceSeed_concat]
    rfl
  · -- A seed was mixed in.
    rw [hd]
    refine ⟨hsettings.trans h.settings, ?_, hcounter ▸ Nat.le_add_left _ _⟩
    rw [hcounter, servedSinceSeed_concat]
    rfl

/-- Calls in a row are counted. -/
theorem run (h : Counted config entries d) (calls : List Call) :
    Counted config (entries ++ record answer d calls) (after answer d calls) := by
  induction calls generalizing entries d with
  | nil =>
    rw [record, List.append_nil]
    exact h
  | cons call calls ih =>
    have hrest := ih (h.step call)
    rw [List.append_assoc, List.singleton_append] at hrest
    exact hrest

end Counted

/-- A generator that has been seeded keeps count in every row of calls: its requests are those
served since the last seed, never more than a seed serves, and its counter fits 64 bits. A request
is refused exactly when the seed has served all of its requests, and new entropy exactly when it is
too short. A refused call leaves the generator as it was; with refused calls in between, the same
calls are answered in the same way, nothing else is given, and the same generator is left. -/
theorem requests_accounted {config : DrbgConfig}
    (hinterval : config.reseedInterval < 2 ^ (64 : Nat) - 1)
    {entropy nonce personalization : Bytes} {d : Drbg}
    (hseed : seed entropy nonce personalization config = .ok d) (calls : List Call) :
    let now := after answer d calls
    now.requests = servedSinceSeed (record answer d calls) ∧
    now.requests ≤ config.reseedInterval ∧ now.counter < 2 ^ (64 : Nat) ∧
    (∀ length additional fault, (answer now (.generate length additional)).1 = .error fault ↔
      config.reseedInterval ≤ now.requests ∧ fault = .reseedRequired now.requests) ∧
    (∀ entropy additional fault, (answer now (.reseed entropy additional)).1 = .error fault ↔
      entropy.length < 24 ∧ fault = .insufficientEntropy entropy.length 24) ∧
    (∀ call fault, (answer now call).1 = .error fault → (answer now call).2 = now) ∧
    ∀ padded, Padded answer d calls padded →
      (record answer d calls).Sublist (record answer d padded) ∧
      (record answer d padded).filter Entry.accepted =
        (record answer d calls).filter Entry.accepted ∧ after answer d padded = now := by
  intro now
  have hcounted : Counted config (record answer d calls) now := (Counted.of_seed hseed).run calls
  have hlimited : now.requests ≤ config.reseedInterval := Nat.sub_le_of_le_add hcounted.limited
  refine ⟨hcounted.requests_eq, hlimited, ?_, fun length additional fault ↦ ?_, fun _ _ _ ↦ ?_,
    fun _ _ ↦ state_of_refused, fun _ h ↦ ⟨h.sublist, h.same_outputs⟩⟩
  · have hcounter := hcounted.limited
    omega
  · rw [answer_generate_eq_error_iff, hcounted.used_up_iff]
  · exact answer_reseed_eq_error_iff

/-- With one request to a seed, a second request and a seed without entropy are both refused, and
the generator is where the first request left it. -/
theorem requests_accounted_one :
    (1 : Nat) < 2 ^ (64 : Nat) - 1 ∧ ∃ d, seed (List.replicate 24 0) [] [] ⟨1⟩ = .ok d ∧
      (after answer d [.generate 8 none]).requests = 1 ∧
      after answer d [.generate 8 none, .generate 40 (some [7]), .reseed [] none] =
        after answer d [.generate 8 none] := by
  have hinterval : (1 : Nat) < 2 ^ (64 : Nat) - 1 := by decide
  refine ⟨hinterval, _, rfl, ?_⟩
  obtain ⟨hrequests, -, -, hgenerate, hreseed, hrefused, hpadded⟩ :=
    @requests_accounted ⟨1⟩ hinterval (List.replicate 24 0) [] [] _ rfl [.generate 8 none]
  have hserved := hrequests.trans (by decide +kernel : _ = 1)
  have hgenerate := (hgenerate 40 (some [7]) _).mpr ⟨Nat.le_of_eq hserved.symm, rfl⟩
  have hreseed := (hreseed [] none _).mpr ⟨by decide, rfl⟩
  have hsecond := (congrArg (fun now ↦ (answer now (.reseed [] none)).1)
    (hrefused _ _ hgenerate)).trans hreseed
  exact ⟨hserved, (hpadded _ (.same _ (.refused hgenerate (.refused hsecond (.nil _))))).2.2⟩

end Secp.Drbg
