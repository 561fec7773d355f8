import Mathlib.Tactic.Common

/-!
# Interleaving streams

`Interleaves q out`: the list `out` is put together from the streams `q`, each in its own order, and has
nothing else.

A server that treats streams separately does to an interleaving what it does to each stream alone
(`Interleaves.feed`): its answers are an interleaving of the answers to each stream.
-/

namespace Interleaving

variable {K α β S St E : Type*} [DecidableEq K]

inductive Interleaves : (K → List α) → List α → Prop
  | nil : Interleaves (fun _ => []) []
  | cons {q : K → List α} {out : List α} (k : K) (a : α) (h : Interleaves q out) :
    Interleaves (Function.update q k (a :: q k)) (a :: out)

/-- Everything comes from a stream. -/
theorem Interleaves.mem {q : K → List α} {out : List α} (h : Interleaves q out) {a : α} (ha : a ∈ out) :
    ∃ k, a ∈ q k := by
  induction h with
  | nil => cases ha
  | cons k b _ ih =>
    rcases List.mem_cons.mp ha with rfl | ha
    · exact ⟨k, by rw [Function.update_self]; exact .head _⟩
    · obtain ⟨j, hj⟩ := ih ha
      refine ⟨j, ?_⟩
      by_cases hjk : j = k
      · subst hjk
        rw [Function.update_self]
        exact .tail _ hj
      · rwa [Function.update_of_ne hjk]

/-- Feed a list to a server that may answer each element, or fail. -/
def feed (push : S → α → Except E (S × Option β)) : S → List α → Except E (S × List β)
  | s, [] => .ok (s, [])
  | s, a :: rest =>
    match push s a with
    | .error e => .error e
    | .ok (s, answer) =>
      match feed push s rest with
      | .error e => .error e
      | .ok (s, answers) => .ok (s, answer.toList ++ answers)

section

variable {push : S → α → Except E (S × Option β)} {s s' s'' : S} {a : α} {rest more : List α} {answer : Option β}
  {answers answers' : List β}

@[simp] theorem feed_nil : feed push s [] = .ok (s, []) := rfl

theorem feed_cons (hp : push s a = .ok (s', answer)) (hf : feed push s' rest = .ok (s'', answers)) :
    feed push s (a :: rest) = .ok (s'', answer.toList ++ answers) := by
  rw [feed, hp]
  dsimp only
  rw [hf]

theorem feed_cons_eq_ok (h : feed push s (a :: rest) = .ok (s'', answers)) :
    ∃ s' answer later, push s a = .ok (s', answer) ∧ feed push s' rest = .ok (s'', later) ∧
      answers = answer.toList ++ later := by
  rw [feed] at h
  split at h
  · cases h
  · rename_i s' answer hp
    split at h
    · cases h
    · rename_i hf
      cases h
      exact ⟨s', answer, _, hp, hf, rfl⟩

theorem feed_append (hf : feed push s rest = .ok (s', answers)) (hf' : feed push s' more = .ok (s'', answers')) :
    feed push s (rest ++ more) = .ok (s'', answers ++ answers') := by
  induction rest generalizing s answers with
  | nil =>
    cases hf
    exact hf'
  | cons a rest ih =>
    obtain ⟨s₁, answer, later, hp, hrest, rfl⟩ := feed_cons_eq_ok hf
    rw [List.append_assoc]
    exact feed_cons hp (ih hrest)

end

/-- **Streams do not disturb each other.**  `step k` is what the server does to the part `get st k` of its
state that stream `k` has. -/
theorem Interleaves.feed (get : St → K → S) {push : St → α → Except E (St × Option β)}
    {step : K → S → α → Except E (S × Option β)}
    (hpush : ∀ st k a s answer, step k (get st k) a = .ok (s, answer) →
      ∃ st', push st a = .ok (st', answer) ∧ get st' = Function.update (get st) k s)
    {q : K → List α} {input : List α} (h : Interleaves q input) {st : St} {final : K → S} {answers : K → List β}
    (hf : ∀ k, Interleaving.feed (step k) (get st k) (q k) = .ok (final k, answers k)) :
    ∃ st' out, Interleaving.feed push st input = .ok (st', out) ∧ get st' = final ∧ Interleaves answers out := by
  induction h generalizing st answers with
  | nil =>
    have hnil : ∀ k, get st k = final k ∧ [] = answers k := by
      intro k
      have h := hf k
      rwa [feed_nil, Except.ok.injEq, Prod.mk.injEq] at h
    refine ⟨st, [], rfl, funext fun k => (hnil k).1, ?_⟩
    have hanswers : answers = fun _ => [] := funext fun k => (hnil k).2.symm
    rw [hanswers]
    exact .nil
  | @cons q input k a _ ih =>
    have hk := hf k
    rw [Function.update_self] at hk
    obtain ⟨s, answer, later, hstep, hrest, hanswers⟩ := feed_cons_eq_ok hk
    obtain ⟨st₁, hp, hget⟩ := hpush st k a s answer hstep
    have hf₁ : ∀ j, Interleaving.feed (step j) (get st₁ j) (q j) = .ok (final j, Function.update answers k later j) := by
      intro j
      by_cases hj : j = k
      · subst hj
        rw [hget, Function.update_self, Function.update_self]
        exact hrest
      · rw [hget, Function.update_of_ne hj, Function.update_of_ne hj]
        have := hf j
        rwa [Function.update_of_ne hj] at this
    obtain ⟨st', out, hfeed, hfinal, hout⟩ := ih hf₁
    refine ⟨st', answer.toList ++ out, feed_cons hp hfeed, hfinal, ?_⟩
    cases answer with
    | none =>
      have hsame : Function.update answers k later = answers := by
        rw [Function.update_eq_self_iff, hanswers]
        rfl
      rwa [hsame] at hout
    | some b =>
      have hcons := hout.cons k b
      rw [Function.update_self, Function.update_idem] at hcons
      have hsame : Function.update answers k (b :: later) = answers := by
        rw [Function.update_eq_self_iff, hanswers]
        rfl
      rwa [hsame] at hcons

end Interleaving
