import NiumaTerm.Lib.History
import NiumaTerm.Remote.Host

/-!
# What a pairing code allows

`Event.Allowed` says when an attempt may be let in by a code or count a wrong guess against it, and
`codes_admit_once` that every event of every run was allowed.  `Shows` is the invariant: the code that is
kept is the last one issued, and its failures are the guesses counted against it.
-/

namespace NiumaTerm.Remote

open Transition History List

/-! ## The property -/

namespace Event

/-- The code that the event is about, counted from 1. -/
def number : Event → ℕ
  | issued number _ | cancelled number | began number _ | guessedWrong number _ | admitted number _ _ _ => number
  | hello _ _ | removed _ => 0

/-- The code cannot be used after the event: it was used, cancelled or replaced. -/
def Ends (number : ℕ) : Event → Prop
  | issued later _ => number < later
  | cancelled n | admitted n _ _ _ => n = number
  | _ => False

def countsGuess (number : ℕ) : Event → Bool
  | guessedWrong n _ => n = number
  | _ => false

def admits (number : ℕ) : Event → Bool
  | admitted n _ _ _ => n = number
  | _ => false

end Event

def wrongGuesses (number : ℕ) (log : List Event) : ℕ := log.countP (Event.countsGuess number)

def Ended (number : ℕ) (log : List Event) : Prop := ∃ e ∈ log, e.Ends number

def BeganWith (log : List Event) (attempt : ℕ) (code : PairingCode) : Prop :=
  ∃ began issued, .began began attempt ∈ log ∧ .issued began issued ∈ log ∧ issued.code = code

/-- The attempt holds the very code, not a different one. -/
def Holds (log : List Event) (attempt number : ℕ) : Prop :=
  ∃ issued, .issued number issued ∈ log ∧ BeganWith log attempt issued.code

/-- The code may let a device in. -/
structure Open (log : List Event) (number now : ℕ) : Prop where
  guesses : wrongGuesses number log < maxFailedAttempts
  time : ∃ issued, .issued number issued ∈ log ∧ now < issued.expiresAtMs
  not_ended : ¬ Ended number log

/-- The event may follow the log. -/
def Event.Allowed (log : List Event) : Event → Prop
  | .issued number _ => ∀ earlier code, .issued earlier code ∈ log → earlier < number
  | .began number attempt => (∀ earlier, .began earlier attempt ∉ log) ∧ ∃ code, .issued number code ∈ log
  | .admitted number attempt now _ => Open log number now ∧ Holds log attempt number
  | .guessedWrong number attempt => Holds log attempt number
  | _ => True

def Call.ofAttempt (attempt : Attempt) : Call → Prop
  | .guessWrong a _ | .acceptPairing a _ _ _ | .dropAttempt a => a = attempt
  | _ => False

/-! ## A code and its log -/

variable {log : List Event} {number : ℕ} {e : Event}

theorem wrongGuesses_concat : wrongGuesses number (log ++ [e]) =
    wrongGuesses number log + if e.countsGuess number then 1 else 0 := by
  simp [wrongGuesses, countP_append, countP_singleton]

theorem ended_concat : Ended number (log ++ [e]) ↔ Ended number log ∨ e.Ends number := by
  simp [Ended, or_and_right, exists_or]

theorem BeganWith.append {attempt : ℕ} {code : PairingCode} (h : BeganWith log attempt code) (more : List Event) :
    BeganWith (log ++ more) attempt code := by
  obtain ⟨began, issued, hb, hi, hc⟩ := h
  exact ⟨began, issued, mem_append_left _ hb, mem_append_left _ hi, hc⟩

/-- The code is the one that the log counts as `number`, with its failures, and has not ended. -/
structure Shows (log : List Event) (number : ℕ) (issued : IssuedCode) : Prop where
  first : ∃ first, .issued number first ∈ log ∧ first.code = issued.code ∧ first.expiresAtMs = issued.expiresAtMs
  guesses : wrongGuesses number log = issued.failedAttempts
  not_ended : ¬ Ended number log

namespace Shows

variable {issued : IssuedCode}

/-- Another event leaves the code as it is. -/
theorem concat (h : Shows log number issued) (hg : e.countsGuess number = false) (he : ¬ e.Ends number) :
    Shows (log ++ [e]) number issued := by
  obtain ⟨first, hf, hc⟩ := h.first
  refine ⟨⟨first, mem_append_left _ hf, hc⟩, ?_, ?_⟩
  · rw [wrongGuesses_concat, hg, h.guesses]
    rfl
  · rw [ended_concat]
    exact not_or.mpr ⟨h.not_ended, he⟩

/-- A code that is issued after all others. -/
theorem issue (hlog : ∀ e ∈ log, e.number < number) (code : PairingCode) (now : ℕ) :
    Shows (log ++ [.issued number (.new code now)]) number (.new code now) := by
  refine ⟨⟨_, mem_append_right _ (mem_singleton.mpr rfl), rfl, rfl⟩, ?_, ?_⟩
  · rw [wrongGuesses_concat]
    show wrongGuesses number log + 0 = 0
    rw [Nat.add_zero, wrongGuesses, countP_eq_zero]
    intro e he hg
    have := hlog e he
    cases e with
    | guessedWrong n attempt =>
      have hn : n = number := of_decide_eq_true hg
      exact absurd (hlog _ he) (by simp [Event.number, hn])
    | _ => cases hg
  · rw [ended_concat]
    rintro (⟨e, he, hends⟩ | hends)
    · have hlt := hlog e he
      cases e with
      | issued later code => exact absurd hlt (Nat.lt_asymm hends)
      | cancelled n | admitted n attempt now key => exact absurd hends (Nat.ne_of_lt hlt)
      | _ => exact hends
    · exact absurd hends (Nat.lt_irrefl number)

theorem guess (h : Shows log number issued) (attempt now : ℕ) :
    Shows (log ++ [.guessedWrong number attempt]) number (issued.recordFailure now).2 := by
  obtain ⟨first, hf, hc⟩ := h.first
  refine ⟨⟨first, mem_append_left _ hf, hc⟩, ?_, ?_⟩
  · rw [wrongGuesses_concat, h.guesses]
    simp [Event.countsGuess, IssuedCode.recordFailure]
  · rw [ended_concat]
    exact not_or.mpr ⟨h.not_ended, fun hends => hends⟩

theorem isOpen (h : Shows log number issued) {now : ℕ} (hu : issued.isUsable now = true) : Open log number now := by
  obtain ⟨first, hf, -, hx⟩ := h.first
  rw [IssuedCode.isUsable, Bool.and_eq_true, decide_eq_true_eq, decide_eq_true_eq] at hu
  exact ⟨by rw [h.guesses]; exact hu.1, ⟨first, hf, by rw [hx]; exact hu.2⟩, h.not_ended⟩

theorem holds (h : Shows log number issued) {attempt : ℕ} (ha : BeganWith log attempt issued.code) :
    Holds log attempt number := by
  obtain ⟨first, hf, hc, -⟩ := h.first
  exact ⟨first, hf, by rw [hc]; exact ha⟩

end Shows

/-! ## One call -/

/-- The books of a run: what the host keeps agrees with the log. -/
structure Books (h : Host) : Prop where
  allowed : AtEach Event.Allowed h.log
  numbers : ∀ e ∈ h.log, e.number ≤ h.issues
  attempts : ∀ number attempt, .began number attempt ∈ h.log → attempt < h.begun
  shows : ∀ issued, h.state.code = some issued → Shows h.log h.issues issued
  began : ∀ attempt ∈ h.attempts, BeganWith h.log attempt.number attempt.code

namespace Books

variable {h h' : Host}

theorem new (devices : List PairedDevice) : Books (.new devices) where
  allowed := atEach_nil
  numbers e he := by cases he
  attempts number attempt he := by cases he
  shows issued hc := by cases hc
  began attempt ha := by cases ha

/-- Nothing is logged, and the code stays. -/
theorem same (hb : Books h) (hlog : h'.log = h.log) (hi : h'.issues = h.issues) (hbegun : h'.begun = h.begun)
    (hc : h'.state.code = h.state.code) (ha : ∀ attempt ∈ h'.attempts, attempt ∈ h.attempts) : Books h' := by
  constructor
  · rw [hlog]
    exact hb.allowed
  · rw [hlog, hi]
    exact hb.numbers
  · rw [hlog, hbegun]
    exact hb.attempts
  · rw [hlog, hi, hc]
    exact hb.shows
  · rw [hlog]
    exact fun attempt hm => hb.began attempt (ha attempt hm)

/-- One event is logged that is no attempt's beginning. -/
theorem concat (hb : Books h) {e : Event} (hlog : h'.log = h.log ++ [e]) (ha : e.Allowed h.log)
    (hi : h.issues ≤ h'.issues) (hn : e.number ≤ h'.issues) (hbegun : h'.begun = h.begun)
    (he : ∀ number attempt, e ≠ .began number attempt)
    (hs : ∀ issued, h'.state.code = some issued → Shows (h.log ++ [e]) h'.issues issued)
    (hm : ∀ attempt ∈ h'.attempts, attempt ∈ h.attempts) : Books h' := by
  constructor
  · rw [hlog]
    exact hb.allowed.concat ha
  · intro x hx
    rw [hlog, mem_append, mem_singleton] at hx
    rcases hx with hx | rfl
    · exact Nat.le_trans (hb.numbers x hx) hi
    · exact hn
  · intro number attempt hx
    rw [hlog, mem_append, mem_singleton] at hx
    rw [hbegun]
    rcases hx with hx | hx
    · exact hb.attempts number attempt hx
    · exact absurd hx.symm (he number attempt)
  · rw [hlog]
    exact hs
  · intro attempt hx
    rw [hlog]
    exact (hb.began attempt (hm attempt hx)).append _

theorem issue (hb : Books h) {state : State} {code : PairingCode} {now : ℕ} (hc : state.code = some (.new code now)) :
    Books (h.issue state (.new code now)) := by
  refine hb.concat rfl ?_ (Nat.le_succ _) (Nat.le_refl _) rfl (fun _ _ he => by cases he) ?_ fun _ hm => hm
  · intro earlier issued hi
    exact Nat.lt_succ_of_le (hb.numbers _ hi)
  · intro issued hi
    rw [show (h.issue state (.new code now)).state.code = state.code from rfl, hc, Option.some.injEq] at hi
    rw [← hi]
    exact .issue (fun e he => Nat.lt_succ_of_le (hb.numbers e he)) code now

theorem devices (hb : Books h) {state : State} {e : Event} (hc : state.code = h.state.code)
    (he : e.number = 0) (ha : e.Allowed h.log) (hends : ∀ number, ¬ e.Ends number)
    (hguess : ∀ number, e.countsGuess number = false) (hbegan : ∀ number attempt, e ≠ .began number attempt) :
    Books (h.changeDevices state [e]) := by
  refine hb.concat rfl ha (Nat.le_refl _) (by rw [he]; exact Nat.zero_le _) rfl hbegan ?_ fun _ hm => hm
  intro issued hi
  exact (hb.shows issued (hc ▸ hi)).concat (hguess _) (hends _)

theorem mem_erase {attempts : List Attempt} {a : Attempt} : ∀ attempt ∈ attempts.erase a, attempt ∈ attempts :=
  fun _ hm => mem_of_mem_erase hm

theorem beginAttempt (hb : Books h) {now : ℕ} {code : PairingCode} (hc : h.state.showing now = some code) :
    Books { h with
      attempts := h.attempts ++ [{ number := h.begun, code }]
      begun := h.begun + 1
      log := h.log ++ [.began h.issues h.begun] } := by
  obtain ⟨issued, hs, rfl, -⟩ := State.showing_eq_some hc
  have hshow := hb.shows issued hs
  obtain ⟨first, hf, hcode, -⟩ := hshow.first
  constructor
  · refine hb.allowed.concat ⟨fun earlier he => ?_, first, hf⟩
    exact absurd (hb.attempts _ _ he) (Nat.lt_irrefl _)
  · intro e he
    rcases mem_append.mp he with he | he
    · exact hb.numbers e he
    · rw [mem_singleton.mp he]
      exact Nat.le_refl _
  · intro number attempt he
    rcases mem_append.mp he with he | he
    · exact Nat.lt_succ_of_lt (hb.attempts _ _ he)
    · cases mem_singleton.mp he
      exact Nat.lt_succ_self _
  · intro other ho
    exact (hb.shows other ho).concat rfl fun hends => hends
  · intro attempt hm
    rcases mem_append.mp hm with hm | hm
    · exact (hb.began attempt hm).append _
    · rw [mem_singleton.mp hm]
      exact ⟨h.issues, first, mem_append_right _ (mem_singleton.mpr rfl), mem_append_left _ hf, hcode⟩

end Books

namespace Books

variable {h : Host} {fromPublicKey : PublicKey → DeviceId}

theorem guessWrong (hb : Books h) {attempt : Attempt} (ha : attempt ∈ h.attempts) (now : ℕ) :
    Books (h.perform fromPublicKey (.guessWrong attempt now)) := by
  rw [Host.perform]
  dsimp only
  rcases h.state.wrongCode_cases attempt.code now with hc | ⟨issued, hs, hcode, hcounted, hc⟩
  · rw [hc]
    exact hb.same rfl rfl rfl rfl mem_erase
  · have hshow := hb.shows issued hs
    have hbegan := hb.began attempt ha
    generalize h.state.wrongCode attempt.code now = result at hcounted hc
    obtain ⟨counted, state⟩ := result
    cases hcounted
    refine hb.concat rfl (hshow.holds (by rw [hcode]; exact hbegan)) (Nat.le_refl _) (Nat.le_refl _) rfl
      (fun _ _ he => by cases he) ?_ mem_erase
    intro other ho
    rcases hc with hc | hc
    · have : (issued.recordFailure now).2 = other := Option.some_inj.mp (hc.symm.trans ho)
      rw [← this]
      exact hshow.guess attempt.number now
    · exact absurd (hc.symm.trans ho) (by simp)

theorem acceptPairing (hb : Books h) {attempt : Attempt} (ha : attempt ∈ h.attempts) (request : PairingRequest)
    (now pairedAt : ℕ) : Books (h.perform fromPublicKey (.acceptPairing attempt request now pairedAt)) := by
  rw [Host.perform]
  dsimp only
  split
  · rename_i state hs
    obtain ⟨⟨issued, hi, hcode, hu⟩, hnone, -⟩ := State.acceptPairing_eq_some hs
    have hshow := hb.shows issued hi
    refine hb.concat rfl ⟨hshow.isOpen hu, hshow.holds (by rw [hcode]; exact hb.began attempt ha)⟩ (Nat.le_refl _)
      (Nat.le_refl _) rfl (fun _ _ he => by cases he) ?_ mem_erase
    intro other ho
    exact absurd (hnone.symm.trans ho) (by simp)
  · exact hb.same rfl rfl rfl rfl mem_erase

theorem perform (hb : Books h) {call : Call} (he : h.Enabled call) : Books (h.perform fromPublicKey call) := by
  cases call with
  | startPairing code now => exact hb.issue rfl
  | seeExpired now =>
    rw [Host.perform]
    split
    · exact hb.same rfl rfl rfl rfl fun _ hm => hm
    · exact hb
  | renewExpiredPairing code now =>
    have hb' : Books { h with renewals := h.renewals - 1 } := hb.same rfl rfl rfl rfl fun _ hm => hm
    rw [Host.perform, State.renewExpiredPairing]
    dsimp only
    split
    · rename_i heq
      split at heq
      · cases heq
        exact hb'.issue rfl
      · cases heq
    · exact hb'
  | cancelPairing =>
    exact hb.concat rfl trivial (Nat.le_refl _) (Nat.le_refl _) rfl (fun _ _ he => by cases he)
      (fun issued hi => by cases hi) fun _ hm => hm
  | beginAttempt now =>
    rw [Host.perform]
    split
    · rename_i code hc
      exact hb.beginAttempt hc
    · exact hb
  | guessWrong attempt now => exact hb.guessWrong he now
  | acceptPairing attempt request now pairedAt => exact hb.acceptPairing he request now pairedAt
  | dropAttempt attempt => exact hb.same rfl rfl rfl rfl mem_erase
  | hello key helloMs now =>
    rw [Host.perform]
    split
    · rename_i state hs
      obtain ⟨-, hc, -⟩ := State.acceptHello_eq_ok hs
      have hb' : Books (h.changeDevices state [.hello key helloMs]) :=
        hb.devices hc rfl trivial (fun _ he => he) (fun _ => rfl) fun _ _ he => by cases he
      exact hb'.same rfl rfl rfl rfl fun _ hm => hm
    · exact hb
  | removeDevice id =>
    rw [Host.perform]
    split
    · rename_i key aborted state hs
      obtain ⟨-, -, hc, -⟩ := State.removeDevice_eq_some hs
      have hb' : Books (h.changeDevices state [.removed key]) :=
        hb.devices hc rfl trivial (fun _ he => he) (fun _ => rfl) fun _ _ he => by cases he
      exact hb'.same rfl rfl rfl rfl fun _ hm => hm
    · exact hb
  | setPush key push =>
    rw [Host.perform]
    split
    · rename_i state hs
      obtain ⟨-, hc, -⟩ := State.setPush_eq_some hs
      exact hb.same (append_nil _) rfl rfl hc fun _ hm => hm
    · exact hb
  | deliver channel | handle channel | stopPump channel =>
    rw [Host.perform]
    split <;> exact hb.same rfl rfl rfl rfl fun _ hm => hm
  | dropChannel channel | register channel | close channel | finishSave snapshot saved =>
    exact hb.same rfl rfl rfl rfl fun _ hm => hm

end Books

/-! ## Every run -/

section

variable {fromPublicKey : PublicKey → DeviceId} {h : Host}

theorem books_reachable (hr : Reachable (hosts fromPublicKey) h) : Books h := by
  refine hr.invariant (fun s hs => ?_) fun s call s' hb hstep => ?_
  · obtain ⟨devices, rfl⟩ := hs
    exact .new devices
  · obtain ⟨he, rfl⟩ := hstep
    exact hb.perform he

/-- A code that was used does not let another device in. -/
theorem admits_once {log : List Event} (ha : AtEach Event.Allowed log) (number : ℕ) :
    log.countP (Event.admits number) ≤ 1 := by
  induction log using reverseRecOn with
  | nil => exact Nat.zero_le _
  | append_singleton log e ih =>
    have hlog : AtEach Event.Allowed log := fun before x after hl => ha before x (after ++ [e]) (by rw [hl]; simp)
    rw [countP_append, countP_singleton]
    split
    · rename_i he
      have hzero : log.countP (Event.admits number) = 0 := by
        rw [countP_eq_zero]
        intro x hx hadmits
        have hallowed : e.Allowed log := ha log e [] rfl
        cases e with
        | admitted n attempt now key =>
          refine hallowed.1.not_ended ⟨x, hx, ?_⟩
          cases x with
          | admitted m attempt' now' key' =>
            exact (of_decide_eq_true hadmits).trans (of_decide_eq_true he).symm
          | _ => cases hadmits
        | _ => cases he
      rw [hzero]
    · exact ih hlog

/-- An attempt that holds another code than the one that is showing changes nothing. -/
theorem attempt_keeps {attempt : Attempt} {call : Call} (hcall : call.ofAttempt attempt)
    (hother : ∀ issued, h.state.code = some issued → issued.code ≠ attempt.code) :
    (h.perform fromPublicKey call).state = h.state ∧ (h.perform fromPublicKey call).log = h.log := by
  cases call with
  | guessWrong a now =>
    cases hcall
    rw [Host.perform]
    rcases h.state.wrongCode_cases attempt.code now with hc | ⟨issued, hs, hcode, -⟩
    · dsimp only
      rw [hc]
      exact ⟨rfl, rfl⟩
    · exact absurd hcode (hother issued hs)
  | acceptPairing a request now pairedAt =>
    cases hcall
    rw [Host.perform]
    dsimp only
    split
    · rename_i state hs
      obtain ⟨⟨issued, hi, hcode, -⟩, -⟩ := State.acceptPairing_eq_some hs
      exact absurd hcode (hother issued hi)
    · exact ⟨rfl, rfl⟩
  | dropAttempt a => exact ⟨rfl, rfl⟩
  | _ => exact hcall.elim

/-- **Pairing code use.**  In every run each event was allowed when it happened: a code lets in one device at
most, and none after its last guess, its time or its end; and a step of an attempt changes nothing while a
different code than its own is showing. -/
theorem codes_admit_once (hr : Reachable (hosts fromPublicKey) h) :
    AtEach Event.Allowed h.log ∧ (∀ number, h.log.countP (Event.admits number) ≤ 1) ∧
    ∀ (attempt : Attempt) (call : Call) (h' : Host), (hosts fromPublicKey).step h call h' → call.ofAttempt attempt →
      (∀ issued, h.state.code = some issued → issued.code ≠ attempt.code) → h'.state = h.state ∧ h'.log = h.log := by
  have hb := books_reachable hr
  refine ⟨hb.allowed, admits_once hb.allowed, fun attempt call h' hstep hcall hother ↦ ?_⟩
  obtain ⟨-, rfl⟩ := hstep
  exact attempt_keeps hcall hother

end

/-! ## One pairing -/

def phone : PairingRequest where
  clientKey := 1
  client := { name := "phone".toList, kind := .mobile, platform := "ios".toList }

/-- A code is shown, and an attempt guesses right. -/
def pairOnce : List Call :=
  [.startPairing "K7Q2M9XD".toList 0, .beginAttempt 1,
    .acceptPairing { number := 0, code := "K7Q2M9XD".toList } phone 2 2]

theorem codes_admit_once_pairOnce : ((Host.new []).after pairOnce).log.countP (Event.admits 1) = 1 ∧
    ((Host.new []).after pairOnce).log.countP (Event.admits 1) ≤ 1 := by
  have hperforms : Performs (hosts someIds) (Host.perform · someIds ·) (.new []) pairOnce :=
    ⟨⟨trivial, rfl⟩, ⟨trivial, rfl⟩, ⟨.head _, rfl⟩, trivial⟩
  exact ⟨by decide, (codes_admit_once ⟨_, (Run.init (S := hosts someIds) ⟨_, rfl⟩).performs hperforms⟩).2.1 1⟩

end NiumaTerm.Remote
