import NiumaTerm.Remote.ClientLink

/-!
# One stream of the host for each view

`one_stream_per_view` holds as long as each answer that opened a stream finds the view there and without
one, and no view that holds a stream is opened a second time.
-/

namespace NiumaTerm.Remote

open Rust Transition List

@[simp]
def ToHost.ask : ToHost → Option (ℕ × Str)
  | .attach id session => some (id, session)
  | .streamClose _ => none

@[simp]
def ToClient.answerTo : ToClient → Option ℕ
  | .attached id _ | .failed id _ => some id
  | .sessionEnded _ | .exit _ => none

namespace Link

/-- The attaches that are on the way to the host or wait there. -/
def asked (l : Link) : List (ℕ × Str) := l.toHost.filterMap ToHost.ask ++ l.starting

/-- The answers on the way back. -/
def answered (l : Link) : List ℕ := l.toClient.filterMap ToClient.answerTo

def ids (l : Link) : List ℕ := l.asked.map Prod.fst ++ l.answered

end Link

namespace RemoteHost

/-! ## Where a stream of the host is known -/

/-- The view holds the stream, or will once the messages in front of it are handled; or its closing is under way. -/
inductive Accounted (r : RemoteHost) (l : Link) (session : Str) (stream : StreamId) : Prop
  | held (h : r.streamOf session = some stream) (hended : .sessionEnded session ∉ l.toClient)
      (hexit : .exit stream ∉ l.toClient)
  | closing (h : (session, stream) ∈ r.closing)
  | notifying (h : stream ∈ r.notifying)
  | closed (h : .streamClose stream ∈ l.toHost)
  | answered (id : ℕ) (before after : List ToClient) (h : l.toClient = before ++ .attached id stream :: after)
      (hcall : l.calls id = some session) (hended : .sessionEnded session ∉ after) (hexit : .exit stream ∉ after)

structure LinkInv (r : RemoteHost) (l : Link) : Prop where
  nodup : l.ids.Nodup
  bounded : ∀ id ∈ l.ids, id < r.nextId
  asked : ∀ id session, (id, session) ∈ l.asked → l.calls id = some session
  single : ∀ session x y, l.streams x = some session → l.streams y = some session → x = y
  held : ∀ session x, l.streams x = some session →
    r.streamOf session = some x ∨ (session, x) ∈ r.closing ∧ r.streamOf session = none
  host : ∀ x hosted, l.hostStreams x = some hosted → hosted.exited = false → r.Accounted l hosted.session x

def Inv (r : RemoteHost) : Prop := ∀ l, r.link = some l → r.LinkInv l

/-- An answer that opened a stream finds the view of its session, which holds none, and none in the table; and a view
is opened only if there is none that holds a stream. -/
def InOrder (r : RemoteHost) : LinkAction → Prop
  | .view session => r.link.isSome = true → r.streamOf session = none
  | .route => ∀ l id stream rest session, r.link = some l → l.toClient = .attached id stream :: rest →
    l.calls id = some session →
    (r.views session).isSome = true ∧ r.streamOf session = none ∧ ∀ x, l.streams x ≠ some session
  | _ => True

/-! ## Steps of the client -/

variable {r r' : RemoteHost} {l l' : Link} {session : Str} {stream : StreamId}

theorem Accounted.mono (h : r.Accounted l session stream) (hstream : r'.streamOf session = r.streamOf session)
    (hclosing : r.closing ⊆ r'.closing) (hnotifying : r.notifying ⊆ r'.notifying) :
    r'.Accounted l session stream := by
  cases h with
  | held h hended hexit => exact .held (hstream.trans h) hended hexit
  | closing h => exact .closing (hclosing h)
  | notifying h => exact .notifying (hnotifying h)
  | closed h => exact .closed h
  | answered id before after h hcall hended hexit => exact .answered id before after h hcall hended hexit

/-- The views hold what they held, and the link is the same. -/
theorem LinkInv.mono (hi : r.LinkInv l) (hid : r.nextId ≤ r'.nextId) (hstream : ∀ s, r'.streamOf s = r.streamOf s)
    (hclosing : r.closing ⊆ r'.closing) (hnotifying : r.notifying ⊆ r'.notifying) : r'.LinkInv l where
  nodup := hi.nodup
  bounded id h := (hi.bounded id h).trans_le hid
  asked := hi.asked
  single := hi.single
  held s x h := by
    rw [hstream s]
    exact (hi.held s x h).imp id fun hc => ⟨hclosing hc.1, hc.2⟩
  host x hosted h hopen := (hi.host x hosted h hopen).mono (hstream _) hclosing hnotifying

theorem LinkInv.same (hi : r.LinkInv l) (hid : r'.nextId = r.nextId) (hviews : r'.views = r.views)
    (hclosing : r'.closing = r.closing) (hnotifying : r'.notifying = r.notifying) : r'.LinkInv l :=
  hi.mono hid.ge (fun s => by rw [streamOf, hviews, streamOf]) (hclosing ▸ List.Subset.refl _)
    (hnotifying ▸ List.Subset.refl _)

theorem streamOf_update (r : RemoteHost) (s session : Str) (view : Option View) :
    streamOf { r with views := Function.update r.views session view } s =
      if s = session then view.bind View.stream else r.streamOf s := by
  unfold streamOf
  by_cases hs : s = session
  · subst hs
    simp
  · simp [hs]

theorem LinkInv.view (hi : r.LinkInv l) (hnone : r.streamOf session = none) : (r.view session).LinkInv l := by
  refine hi.mono (Nat.le_refl _) (fun s => ?_) (List.Subset.refl _) (List.Subset.refl _)
  refine (streamOf_update r s session (some ⟨none⟩)).trans ?_
  split
  · next hs => rw [hs, hnone]; rfl
  · rfl

theorem LinkInv.detach (hi : r.LinkInv l) : (r.detach session).LinkInv l := by
  have hstream (s : Str) : (r.detach session).streamOf s = if s = session then none else r.streamOf s :=
    streamOf_update r s session none
  have hsub : r.closing ⊆ (r.detach session).closing := by
    unfold RemoteHost.detach
    cases r.streamOf session with
    | none => exact List.Subset.refl _
    | some x => exact subset_cons_self ..
  have hnew {x : StreamId} (hx : r.streamOf session = some x) : (session, x) ∈ (r.detach session).closing := by
    unfold RemoteHost.detach
    rw [hx]
    exact mem_cons_self ..
  refine ⟨hi.nodup, hi.bounded, hi.asked, hi.single, fun s x h => ?_, fun x hosted h hopen => ?_⟩
  · rw [hstream]
    split
    · next hs =>
      subst hs
      refine .inr ⟨?_, rfl⟩
      exact (hi.held s x h).elim hnew fun hc => hsub hc.1
    · exact (hi.held s x h).imp id fun hc => ⟨hsub hc.1, hc.2⟩
  · have hacc := hi.host x hosted h hopen
    by_cases hs : hosted.session = session
    · cases hacc with
      | held hheld hended hexit => exact .closing (hs ▸ hnew (hs ▸ hheld))
      | closing h => exact .closing (hsub h)
      | notifying h => exact .notifying h
      | closed h => exact .closed h
      | answered id before after h hcall hended hexit => exact .answered id before after h hcall hended hexit
    · exact hacc.mono (by rw [hstream, if_neg hs]) hsub (List.Subset.refl _)

theorem removeStream_eq_some {s : Str} {x : StreamId} (h : (l.removeStream stream).streams x = some s) :
    x ≠ stream ∧ l.streams x = some s := by
  have heq : (l.removeStream stream).streams x = if x = stream then none else l.streams x :=
    Function.update_apply ..
  rw [heq] at h
  split at h
  · cases h
  · next hne => exact ⟨hne, h⟩

/-- The stream leaves the table, and the host is to be told. -/
theorem LinkInv.detachStream (hi : r.LinkInv l) :
    (r.detachStream session stream).LinkInv (l.removeStream stream) := by
  refine ⟨hi.nodup, hi.bounded, hi.asked, fun s x y hx hy => ?_, fun s x h => ?_, fun x hosted h hopen => ?_⟩
  · exact hi.single s x y (removeStream_eq_some hx).2 (removeStream_eq_some hy).2
  · obtain ⟨hne, h⟩ := removeStream_eq_some h
    refine (hi.held s x h).imp id fun hc => ⟨?_, hc.2⟩
    exact (mem_erase_of_ne fun heq => hne (Prod.mk.inj heq).2).mpr hc.1
  · cases hi.host x hosted h hopen with
    | held hheld hended hexit => exact .held hheld hended hexit
    | closing hc =>
      by_cases heq : (hosted.session, x) = (session, stream)
      · exact .notifying ((Prod.mk.inj heq).2 ▸ mem_cons_self ..)
      · exact .closing ((mem_erase_of_ne heq).mpr hc)
    | notifying h => exact .notifying (.tail _ h)
    | closed h => exact .closed h
    | answered id before after h hcall hended hexit => exact .answered id before after h hcall hended hexit

theorem LinkInv.notifyClose (hi : r.LinkInv l) : (r.notifyClose stream).LinkInv (l.sendClose stream) := by
  have hasked : (l.sendClose stream).asked = l.asked := by
    simp [Link.asked, Link.sendClose, filterMap_append]
  have hids : (l.sendClose stream).ids = l.ids := by rw [Link.ids, hasked, Link.ids]; rfl
  refine ⟨hids ▸ hi.nodup, hids ▸ hi.bounded, hasked ▸ hi.asked, hi.single, hi.held, fun x hosted h hopen => ?_⟩
  cases hi.host x hosted h hopen with
  | held hheld hended hexit => exact .held hheld hended hexit
  | closing hc => exact .closing hc
  | notifying hn =>
    by_cases heq : x = stream
    · exact .closed (mem_append_right _ (heq ▸ mem_singleton_self _))
    · exact .notifying ((mem_erase_of_ne heq).mpr hn)
  | closed h => exact .closed (mem_append_left _ h)
  | answered id before after h hcall hended hexit => exact .answered id before after h hcall hended hexit

theorem asked_sendAttach (l : Link) (id : ℕ) (session : Str) :
    (l.sendAttach id session).asked.Perm ((id, session) :: l.asked) := by
  unfold Link.asked Link.sendAttach
  rw [filterMap_append, append_assoc]
  exact perm_middle

/-- A call under a new number. -/
theorem LinkInv.sendAttach (hi : r.LinkInv l) (hstream : ∀ s, r'.streamOf s = r.streamOf s)
    (hclosing : r.closing ⊆ r'.closing) (hnotifying : r.notifying ⊆ r'.notifying) (hid : r'.nextId = r.nextId + 1) :
    r'.LinkInv (l.sendAttach r.nextId session) := by
  have hperm := asked_sendAttach l r.nextId session
  have hids : (l.sendAttach r.nextId session).ids.Perm (r.nextId :: l.ids) := (hperm.map Prod.fst).append_right _
  have hnew : r.nextId ∉ l.ids := fun h => Nat.lt_irrefl _ (hi.bounded _ h)
  have hcalls {id : ℕ} {s : Str} (h : l.calls id = some s) (hne : id ≠ r.nextId) :
      (l.sendAttach r.nextId session).calls id = some s := (Function.update_of_ne hne ..).trans h
  have hi' := hi.mono (hid ▸ Nat.le_succ _) hstream hclosing hnotifying
  refine ⟨hids.nodup_iff.mpr (nodup_cons.mpr ⟨hnew, hi.nodup⟩), fun id h => ?_, fun id s h => ?_, hi.single,
    hi'.held, fun x hosted h hopen => ?_⟩
  · rw [hid]
    rcases mem_cons.mp (hids.subset h) with rfl | h
    · exact Nat.lt_succ_self _
    · exact (hi.bounded id h).trans (Nat.lt_succ_self _)
  · rcases mem_cons.mp (hperm.subset h) with heq | h
    · cases heq
      exact Function.update_self ..
    · refine hcalls (hi.asked id s h) fun heq => hnew (heq ▸ ?_)
      exact mem_append_left _ (mem_map.mpr ⟨_, h, rfl⟩)
  · cases hi'.host x hosted h hopen with
    | held hheld hended hexit => exact .held hheld hended hexit
    | closing hc => exact .closing hc
    | notifying hn => exact .notifying hn
    | closed h => exact .closed (mem_append_left _ h)
    | answered id before after h hcall hended hexit =>
      refine .answered id before after h (hcalls hcall fun heq => hnew (heq ▸ ?_)) hended hexit
      refine mem_append_right _ (mem_filterMap.mpr ⟨.attached id x, ?_, rfl⟩)
      exact h ▸ mem_append_right _ (mem_cons_self ..)

/-! ## Steps of the host -/

/-- More messages of the host, none of which ends a view or a stream. -/
theorem Accounted.answer (h : r.Accounted l session stream) (more : List ToClient)
    (hto : ∀ x, .streamClose x ∈ l.toHost → .streamClose x ∈ l'.toHost) (hcalls : l'.calls = l.calls)
    (hclient : l'.toClient = l.toClient ++ more)
    (hended : .sessionEnded session ∉ more) (hexit : .exit stream ∉ more) : r.Accounted l' session stream := by
  have hmore {m : ToClient} {ms : List ToClient} (hm : m ∉ ms) (hm' : m ∉ more) : m ∉ ms ++ more :=
    fun h => (mem_append.mp h).elim hm hm'
  cases h with
  | held h hended' hexit' =>
    exact .held h (hclient ▸ hmore hended' hended) (hclient ▸ hmore hexit' hexit)
  | closing h => exact .closing h
  | notifying h => exact .notifying h
  | closed h => exact .closed (hto _ h)
  | answered id before after h hcall hended' hexit' =>
    refine .answered id before (after ++ more) ?_ (hcalls ▸ hcall) (hmore hended' hended) (hmore hexit' hexit)
    rw [hclient, h, append_assoc, cons_append]

theorem asked_answer (l : Link) (id : ℕ) (session : Str) (reply : Reply) :
    (l.answer id session reply).asked ⊆ (id, session) :: l.asked := by
  cases reply with
  | opens | fails notFound => exact subset_cons_self ..
  | starts =>
    intro ask hask
    refine (perm_append_singleton (id, session) l.asked).subset ?_
    rw [Link.asked, append_assoc]
    exact hask

theorem ids_answer (l : Link) (id : ℕ) (session : Str) (reply : Reply) :
    (l.answer id session reply).ids.Perm (id :: l.ids) := by
  cases reply with
  | opens | fails notFound =>
    refine List.Perm.trans ?_ (perm_append_singleton id l.ids)
    simp [Link.ids, Link.asked, Link.answered, Link.answer, filterMap_append]
  | starts =>
    have hasked : (l.answer id session .starts).asked = l.asked ++ [(id, session)] := by
      simp [Link.asked, Link.answer]
    rw [Link.ids, hasked, map_append, append_assoc]
    exact perm_middle

/-- An ask is taken out and answered, or waits at the host. -/
theorem LinkInv.answer (hi : r.LinkInv l) {id : ℕ} {reply : Reply} (hasked : l.asked.Perm ((id, session) :: l'.asked))
    (hto : ∀ x, .streamClose x ∈ l.toHost → .streamClose x ∈ l'.toHost) (hcalls : l'.calls = l.calls)
    (hstreams : l'.streams = l.streams) (hhost : l'.hostStreams = l.hostStreams)
    (hclient : l'.toClient = l.toClient) : r.LinkInv (l'.answer id session reply) := by
  have hcall : l.calls id = some session := hi.asked id session (hasked.symm.subset (mem_cons_self ..))
  have hids : (l'.answer id session reply).ids.Perm l.ids := by
    refine (ids_answer l' id session reply).trans (List.Perm.symm ?_)
    rw [Link.ids, Link.ids, Link.answered, hclient.symm]
    exact (hasked.map Prod.fst).append_right _
  have hcalls' : (l'.answer id session reply).calls = l.calls := by
    cases reply <;> exact hcalls
  have hstreams' : (l'.answer id session reply).streams = l.streams := by
    cases reply <;> exact hstreams
  refine ⟨hids.nodup_iff.mpr hi.nodup, fun id' h => hi.bounded id' (hids.subset h), fun id' s h => ?_,
    fun s x y hx hy => hi.single s x y (hstreams' ▸ hx) (hstreams' ▸ hy), fun s x h => hi.held s x (hstreams' ▸ h),
    fun x hosted h hopen => ?_⟩
  · rw [hcalls']
    exact hi.asked id' s (hasked.symm.subset (asked_answer l' id session reply h))
  · cases reply with
    | opens =>
      have heq : (l'.answer id session .opens).hostStreams x =
          if x = l'.nextStream then some ⟨session, false⟩ else l'.hostStreams x := Function.update_apply ..
      rw [heq] at h
      split at h
      · next hx =>
        cases h
        refine .answered id l'.toClient [] (hx ▸ rfl) (hcalls ▸ hcall) not_mem_nil not_mem_nil
      · refine (hi.host x hosted (hhost ▸ h) hopen).answer [.attached id l'.nextStream] hto hcalls'
          (congrArg (· ++ _) hclient) ?_ ?_ <;> simp
    | fails notFound =>
      refine (hi.host x hosted (hhost ▸ h) hopen).answer [.failed id notFound] hto hcalls'
          (congrArg (· ++ _) hclient) ?_ ?_ <;> simp
    | starts =>
      refine (hi.host x hosted (hhost ▸ h) hopen).answer [] hto hcalls'
          (hclient.trans (append_nil _).symm) ?_ ?_ <;> simp

theorem LinkInv.handle (hi : r.LinkInv l) (reply : Reply) : r.LinkInv (l.handle reply) := by
  unfold Link.handle
  split
  · exact hi
  · next id session rest hto =>
    have hasked : l.asked = (id, session) :: Link.asked { l with toHost := rest } := by
      rw [Link.asked, hto]
      rfl
    refine hi.answer (hasked ▸ List.Perm.refl _) (fun x hx => ?_) rfl rfl rfl rfl
    rw [hto] at hx
    exact (mem_cons.mp hx).resolve_left (by simp)
  · next x₀ rest hto =>
    have hasked : l.asked = Link.asked { l with toHost := rest } := by
      rw [Link.asked, hto]
      rfl
    refine ⟨?_, ?_, ?_, hi.single, hi.held, fun x hosted h hopen => ?_⟩
    · have := hi.nodup
      rw [Link.ids, hasked] at this
      exact this
    · have := hi.bounded
      rw [Link.ids, hasked] at this
      exact this
    · have := hi.asked
      rw [hasked] at this
      exact this
    · have heq : Function.update l.hostStreams x₀ none x = if x = x₀ then none else l.hostStreams x :=
        Function.update_apply ..
      replace h := heq.symm.trans h
      split at h
      · cases h
      · next hne =>
        cases hi.host x hosted h hopen with
        | held hheld hended hexit => exact .held hheld hended hexit
        | closing hc => exact .closing hc
        | notifying hn => exact .notifying hn
        | closed hclosed =>
          rw [hto] at hclosed
          refine .closed ((mem_cons.mp hclosed).resolve_left fun heq => hne ?_)
          exact ToHost.streamClose.inj heq
        | answered id before after h hcall hended hexit => exact .answered id before after h hcall hended hexit

theorem LinkInv.started (hi : r.LinkInv l) {id : ℕ} (hmem : (id, session) ∈ l.starting) (reply : Reply) :
    r.LinkInv (l.started id session reply) := by
  refine hi.answer ?_ (fun _ hx => hx) rfl rfl rfl rfl
  unfold Link.asked
  exact ((perm_cons_erase hmem).append_left _).trans perm_middle

theorem LinkInv.exit (hi : r.LinkInv l) : r.LinkInv (l.exit stream) := by
  have hids : (l.exit stream).ids = l.ids := by
    simp [Link.ids, Link.asked, Link.answered, Link.exit, filterMap_append]
  refine ⟨hids ▸ hi.nodup, hids ▸ hi.bounded, hi.asked, hi.single, hi.held, fun x hosted h hopen => ?_⟩
  have heq : (l.exit stream).hostStreams x =
      if x = stream then (l.hostStreams stream).map fun hosted => { hosted with exited := true }
      else l.hostStreams x := Function.update_apply ..
  rw [heq] at h
  split at h
  · obtain ⟨_, -, rfl⟩ := Option.map_eq_some_iff.mp h
    cases hopen
  · next hne =>
    refine (hi.host x hosted h hopen).answer [.exit stream] (fun _ hx => hx) rfl rfl ?_ ?_
    · simp
    · simpa using hne

theorem LinkInv.kicked (hi : r.LinkInv l) : r.LinkInv (l.kicked session) := by
  have hids : (l.kicked session).ids = l.ids := by
    simp [Link.ids, Link.asked, Link.answered, Link.kicked, filterMap_append]
  refine ⟨hids ▸ hi.nodup, hids ▸ hi.bounded, hi.asked, hi.single, hi.held, fun x hosted h hopen => ?_⟩
  obtain ⟨h, hne⟩ := Option.filter_eq_some_iff.mp h
  refine (hi.host x hosted h hopen).answer [.sessionEnded session] (fun _ hx => hx) rfl rfl ?_ ?_
  · simpa using of_decide_eq_true hne
  · simp

/-! ## Routing -/

variable {message : ToClient} {rest : List ToClient}

/-- The message in front is handled: an answer gives the stream to its view, and no view loses a stream that does not
end with the message. -/
theorem Accounted.next (h : r.Accounted l session stream) (hm : l.toClient = message :: rest)
    (hto : l'.toHost = l.toHost) (hclient : l'.toClient = rest)
    (hcalls : ∀ id, .attached id stream ∈ rest → l.calls id = some session → l'.calls id = some session)
    (hhead : ∀ id, message = .attached id stream → l.calls id = some session → r'.streamOf session = some stream)
    (hstream : message ≠ .sessionEnded session → message ≠ .exit stream → r.streamOf session = some stream →
      r'.streamOf session = some stream)
    (hclosing : r.closing ⊆ r'.closing) (hnotifying : r.notifying ⊆ r'.notifying) :
    r'.Accounted l' session stream := by
  cases h with
  | held h hended hexit =>
    rw [hm, mem_cons, not_or] at hended hexit
    refine .held (hstream (Ne.symm hended.1) (Ne.symm hexit.1) h) ?_ ?_ <;> rw [hclient]
    · exact hended.2
    · exact hexit.2
  | closing h => exact .closing (hclosing h)
  | notifying h => exact .notifying (hnotifying h)
  | closed h => exact .closed (hto ▸ h)
  | answered id before after h hcall hended hexit =>
    rw [hm] at h
    cases before with
    | nil =>
      obtain ⟨hhd, rfl⟩ := List.cons.inj h
      exact .held (hhead id hhd hcall) (hclient ▸ hended) (hclient ▸ hexit)
    | cons first before =>
      obtain ⟨-, rfl⟩ := List.cons.inj h
      have hmem : ToClient.attached id stream ∈ before ++ .attached id stream :: after :=
        mem_append_right _ (mem_cons_self ..)
      exact .answered id before after hclient (hcalls id hmem hcall) hended hexit

/-- The message in front leaves the link, and the tables change as they do. -/
theorem LinkInv.next (hi : r.LinkInv l) (hm : l.toClient = message :: rest)
    (hto : l'.toHost = l.toHost) (hstarting : l'.starting = l.starting) (hclient : l'.toClient = rest)
    (hid : r.nextId = r'.nextId) (hcalls : ∀ id s, id ∈ Link.ids l' → l.calls id = some s → l'.calls id = some s)
    (hsingle : ∀ s x y, l'.streams x = some s → l'.streams y = some s → x = y)
    (hheld : ∀ s x, l'.streams x = some s →
      r'.streamOf s = some x ∨ (s, x) ∈ r'.closing ∧ r'.streamOf s = none)
    (hhost : l'.hostStreams = l.hostStreams)
    (hhead : ∀ id s x, message = .attached id x → l.calls id = some s → r'.streamOf s = some x)
    (hstream : ∀ s x, message ≠ .sessionEnded s → message ≠ .exit x → r.streamOf s = some x → r'.streamOf s = some x)
    (hclosing : r.closing = r'.closing) (hnotifying : r.notifying = r'.notifying) : r'.LinkInv l' := by
  have hasked : l'.asked = l.asked := by rw [Link.asked, hto, hstarting, Link.asked]
  have hids : l'.ids.Sublist l.ids := by
    rw [Link.ids, Link.ids, hasked, Link.answered, Link.answered, hclient, hm]
    refine List.Sublist.append_left (List.Sublist.filterMap _ (sublist_cons_self ..)) _
  refine ⟨hids.nodup hi.nodup, fun id h => hid ▸ hi.bounded id (hids.subset h), fun id s h => ?_, hsingle, hheld,
    fun x hosted h hopen => ?_⟩
  · refine hcalls id s (mem_append_left _ (mem_map.mpr ⟨_, h, rfl⟩)) (hi.asked id s (hasked ▸ h))
  · rw [hhost] at h
    have hacc := hi.host x hosted h hopen
    refine hacc.next hm hto hclient (fun id hin hcall => hcalls id _ ?_ hcall)
      (fun id hmes hcall => hhead id _ x hmes hcall)
      (hstream _ x) (hclosing ▸ List.Subset.refl _) (hnotifying ▸ List.Subset.refl _)
    refine mem_append_right _ (mem_filterMap.mpr ⟨_, hclient ▸ hin, rfl⟩)

/-- The number of an answer in front is not the number of another call. -/
theorem LinkInv.id_ne (hi : r.LinkInv l) (hm : l.toClient = message :: rest) {id id' : ℕ}
    (hid : message.answerTo = some id) (hmem : id' ∈ Link.ids { l with toClient := rest }) : id' ≠ id := by
  rintro rfl
  have hfront : l.answered = id' :: Link.answered { l with toClient := rest } := by
    rw [Link.answered, hm, filterMap_cons_some hid]
    rfl
  have hnodup := hi.nodup
  rw [Link.ids, hfront] at hnodup
  exact (nodup_cons.mp (perm_middle.nodup_iff.mp hnodup)).1 hmem

/-- An answer gives its stream to the view. -/
theorem LinkInv.attached (hi : r.LinkInv l) {id : ℕ} (hm : l.toClient = .attached id stream :: rest)
    (hcall : l.calls id = some session) (hnone : r.streamOf session = none)
    (htable : ∀ x, l.streams x ≠ some session) :
    (r.insertView session ⟨some stream⟩).LinkInv { l with
        toClient := rest
        calls := Function.update l.calls id none
        streams := Function.update l.streams stream (some session) } := by
  have hstream (s : Str) : (r.insertView session ⟨some stream⟩).streamOf s =
      if s = session then some stream else r.streamOf s := streamOf_update r s session _
  -- what the table has now: the new stream for this session only, and what it had
  have hstreams {s : Str} {x : StreamId} (h : Function.update l.streams stream (some session) x = some s) :
      x = stream ∧ s = session ∨ s ≠ session ∧ l.streams x = some s := by
    by_cases hx : x = stream
    · subst hx
      rw [Function.update_self] at h
      cases h
      exact .inl ⟨rfl, rfl⟩
    · rw [Function.update_of_ne hx] at h
      exact .inr ⟨fun hs => htable x (hs ▸ h), h⟩
  refine hi.next hm rfl rfl rfl rfl (fun id' s hid h => ?_) (fun s x y hx hy => ?_) (fun s x h => ?_) rfl
    (fun id' s x hmes h => ?_) (fun s x _ _ h => ?_) rfl rfl
  · exact (Function.update_of_ne (hi.id_ne hm rfl hid) ..).trans h
  · rcases hstreams hx with ⟨rfl, rfl⟩ | ⟨hs, hx⟩ <;> rcases hstreams hy with ⟨rfl, hs'⟩ | ⟨hs', hy⟩
    · rfl
    · exact absurd rfl hs'
    · exact absurd hs' hs
    · exact hi.single s x y hx hy
  · rw [hstream]
    rcases hstreams h with ⟨rfl, rfl⟩ | ⟨hs, h⟩
    · exact .inl (if_pos rfl)
    · rw [if_neg hs]
      exact hi.held s x h
  · cases hmes
    rw [hcall] at h
    cases h
    rw [hstream, if_pos rfl]
  · rw [hstream, if_neg]
    · exact h
    · rintro rfl
      rw [hnone] at h
      cases h

/-- An answer that opened nothing, or to no call. -/
theorem LinkInv.dropped (hi : r.LinkInv l) (hm : l.toClient = message :: rest) {calls : ℕ → Option Str}
    (hcalls : ∀ id s, id ∈ Link.ids { l with toClient := rest } → l.calls id = some s → calls id = some s)
    (hhead : ∀ id s x, message = .attached id x → l.calls id ≠ some s) :
    r.LinkInv { l with toClient := rest, calls } :=
  hi.next hm rfl rfl rfl rfl hcalls hi.single hi.held rfl (fun id s x hmes h => absurd h (hhead id s x hmes))
    (fun _ _ _ _ h => h) rfl rfl

/-- The host ended the view, which loses the stream it holds. -/
theorem LinkInv.sessionEnded (hi : r.LinkInv l) (hm : l.toClient = .sessionEnded session :: rest)
    (hheld : r.streamOf session = some stream) :
    (r.insertView session ⟨none⟩).LinkInv ({ l with toClient := rest }.removeStream stream) := by
  have hstream (s : Str) : (r.insertView session ⟨none⟩).streamOf s = if s = session then none else r.streamOf s :=
    streamOf_update r s session _
  refine hi.next hm rfl rfl rfl rfl (fun _ _ _ h => h) (fun s x y hx hy => ?_) (fun s x h => ?_) rfl
    (fun id s x hmes h => ?_) (fun s x hne _ h => ?_) rfl rfl
  · exact hi.single s x y (removeStream_eq_some hx).2 (removeStream_eq_some hy).2
  · obtain ⟨hne, h⟩ := removeStream_eq_some h
    have hold := hi.held s x h
    rw [hstream]
    split
    · next hs =>
      -- the table has no other stream of this session
      subst hs
      rw [hheld] at hold
      rcases hold with hold | hold
      · exact absurd (Option.some_inj.mp hold).symm hne
      · cases hold.2
    · exact hold
  · cases hmes
  · rw [hstream, if_neg]
    · exact h
    · rintro rfl
      exact hne rfl

/-- The stream ended, and its view goes. -/
theorem LinkInv.exited (hi : r.LinkInv l) (hm : l.toClient = .exit stream :: rest)
    (htable : l.streams stream = some session) :
    LinkInv { r with views := Function.update r.views session none }
      ({ l with toClient := rest }.removeStream stream) := by
  have hstream (s : Str) : streamOf { r with views := Function.update r.views session none } s =
      if s = session then none else r.streamOf s := streamOf_update r s session none
  refine hi.next hm rfl rfl rfl rfl (fun _ _ _ h => h) (fun s x y hx hy => ?_) (fun s x h => ?_) rfl
    (fun id s x hmes h => ?_) (fun s x _ hne h => ?_) rfl rfl
  · exact hi.single s x y (removeStream_eq_some hx).2 (removeStream_eq_some hy).2
  · obtain ⟨hne, h⟩ := removeStream_eq_some h
    rw [hstream]
    split
    · next hs => exact absurd (hi.single session x stream (hs ▸ h) htable) hne
    · exact hi.held s x h
  · cases hmes
  · rw [hstream, if_neg]
    · exact h
    · rintro rfl
      -- the view holds the stream that ends, or none
      rcases hi.held s stream htable with hheld | hheld
      · rw [hheld] at h
        exact hne (congrArg ToClient.exit (Option.some_inj.mp h))
      · rw [hheld.2] at h
        cases h

/-- Every message routed in order keeps the invariant. -/
theorem LinkInv.routeMessage (hi : r.LinkInv l) (hm : l.toClient = message :: rest)
    (ho : ∀ id stream session, message = .attached id stream → l.calls id = some session →
      (r.views session).isSome = true ∧ r.streamOf session = none ∧ ∀ x, l.streams x ≠ some session) :
    (r.routeMessage { l with toClient := rest } message).Inv := by
  intro l' hl
  cases message with
  | attached id stream =>
    rw [RemoteHost.routeMessage] at hl ⊢
    cases hcall : l.calls id with
    | none =>
      simp only [hcall] at hl ⊢
      cases hl
      refine (hi.dropped hm (fun _ _ _ h => h) fun id' s x hmes h => ?_).same rfl rfl rfl rfl
      cases hmes
      rw [hcall] at h
      cases h
    | some session =>
      obtain ⟨hview, hnone, htable⟩ := ho id stream session rfl hcall
      simp only [hcall, hview, if_true] at hl ⊢
      cases hl
      exact (hi.attached hm hcall hnone htable).same rfl rfl rfl rfl
  | failed id notFound =>
    rw [RemoteHost.routeMessage] at hl ⊢
    cases hcall : l.calls id with
    | none =>
      simp only [hcall] at hl ⊢
      cases hl
      refine (hi.dropped hm (fun _ _ _ h => h) fun id' s x hmes => ?_).same rfl rfl rfl rfl
      cases hmes
    | some session =>
      simp only [hcall] at hl ⊢
      cases hl
      refine (hi.dropped hm (fun id' s hid h => ?_) fun id' s x hmes => ?_).same rfl rfl rfl rfl
      · exact (Function.update_of_ne (hi.id_ne hm rfl hid) ..).trans h
      · cases hmes
  | sessionEnded session =>
    rw [RemoteHost.routeMessage] at hl ⊢
    cases hheld : r.streamOf session with
    | none =>
      simp only [hheld] at hl ⊢
      cases hl
      refine (hi.dropped hm (fun _ _ _ h => h) fun id' s x hmes => ?_).same rfl rfl rfl rfl
      cases hmes
    | some stream =>
      simp only [hheld] at hl ⊢
      cases hl
      exact (hi.sessionEnded hm hheld).same rfl rfl rfl rfl
  | exit stream =>
    rw [RemoteHost.routeMessage] at hl ⊢
    cases htable : l.streams stream with
    | none =>
      simp only [htable] at hl ⊢
      cases hl
      refine (hi.dropped hm (fun _ _ _ h => h) fun id' s x hmes => ?_).same rfl rfl rfl rfl
      cases hmes
    | some session =>
      simp only [htable] at hl ⊢
      cases hl
      exact (hi.exited hm htable).same rfl rfl rfl rfl

/-! ## Runs -/

theorem Inv.new : RemoteHost.new.Inv := by
  intro l hl
  cases hl

theorem linkInv_new (r : RemoteHost) (number : ℕ) : r.LinkInv (.new number) where
  nodup := nodup_nil
  bounded _ h := by cases h
  asked _ _ h := by cases h
  single _ _ _ h := by cases h
  held _ _ h := by cases h
  host _ _ h := by cases h

/-- A step that leaves the link as it is. -/
theorem Inv.same (hi : r.Inv) (hlink : r'.link = r.link) (hid : r'.nextId = r.nextId) (hviews : r'.views = r.views)
    (hclosing : r'.closing = r.closing) (hnotifying : r'.notifying = r.notifying) : r'.Inv :=
  fun l hl => (hi l (hlink ▸ hl)).same hid hviews hclosing hnotifying

/-- A step of the host's end. -/
theorem Inv.map {f : Link → Link} (hf : ∀ l, r.link = some l → r.LinkInv (f l)) :
    Inv { r with link := r.link.map f } := by
  intro l' hl'
  obtain ⟨l, hl, rfl⟩ := Option.map_eq_some_iff.mp hl'
  exact (hf l hl).same rfl rfl rfl rfl

theorem attach_eq (r : RemoteHost) (session : Str) : (r.attach session).link = r.link ∧
    (r.attach session).nextId = r.nextId ∧ (r.attach session).views = r.views ∧
    (r.attach session).closing = r.closing ∧ (r.attach session).notifying = r.notifying := by
  unfold RemoteHost.attach
  split <;> exact ⟨rfl, rfl, rfl, rfl, rfl⟩

theorem Inv.attach (hi : r.Inv) (session : Str) : (r.attach session).Inv := by
  obtain ⟨hlink, hid, hviews, hclosing, hnotifying⟩ := attach_eq r session
  exact hi.same hlink hid hviews hclosing hnotifying

theorem Inv.route (hi : r.Inv) (ho : r.InOrder .route) : r.route.Inv := by
  unfold RemoteHost.route
  split
  · exact hi
  · next l hl =>
    split
    · exact hi
    · next message rest hm =>
      refine (hi l hl).routeMessage hm fun id stream session hmes hcall => ?_
      subst hmes
      exact ho l id stream rest session hl hm hcall

theorem attach_supervisor (r : RemoteHost) (session : Str) : (r.attach session).supervisor = r.supervisor := by
  unfold RemoteHost.attach
  split <;> rfl

theorem route_supervisor (r : RemoteHost) : r.route.supervisor = r.supervisor := by
  unfold RemoteHost.route
  split
  · rfl
  split
  · rfl
  next message rest hm =>
    cases message with
    | attached id stream =>
      rw [routeMessage]
      split
      · rfl
      · dsimp only
        split <;> rfl
    | failed id notFound | sessionEnded session | exit stream =>
      rw [routeMessage]
      split <;> rfl

/-- While the supervisor takes the streams off the views there is no link. -/
def Down (r : RemoteHost) : Prop := r.supervisor = .closing → r.link = none

theorem Down.step (hd : r.Down) {action : LinkAction} (hs : clients.step r action r') : r'.Down := by
  obtain ⟨hen, rfl⟩ := hs
  have hmap (f : Link → Link) (h : r.supervisor = .closing) : r.link.map f = none := by rw [hd h, Option.map_none]
  cases action with
  | view session | detach session | endView session => exact hd
  | viewLink session =>
    intro h
    exact (attach_eq r session).1.trans (hd ((attach_supervisor r session).symm.trans h))
  | detachStream session stream | notifyClose stream | sendAttach link session => exact hmap _
  | linkUp | readEnded | collect sessions | dispatch | resetStreams => exact fun h => by cases h
  | attachNext =>
    obtain ⟨session, rest, hsup⟩ := hen
    intro h
    simp only [RemoteHost.perform, RemoteHost.attachNext, hsup] at h
    cases h
  | route =>
    intro h
    have := hen.1.symm.trans ((route_supervisor r).symm.trans h)
    cases this
  | linkDown => exact fun _ => rfl
  | hostHandle reply | hostStarted id session reply | hostExit stream | hostKicked session =>
    exact hmap _

/-- The step lemma. -/
theorem Inv.step (hi : r.Inv) (hd : r.Down) {action : LinkAction} (ho : r.InOrder action)
    (hs : clients.step r action r') : r'.Inv := by
  obtain ⟨hen, rfl⟩ := hs
  cases action with
  | view session =>
    intro l hl
    exact (hi l hl).view (ho (Option.isSome_iff_exists.mpr ⟨l, hl⟩))
  | viewLink session =>
    exact (hi.attach session).same rfl rfl rfl rfl rfl
  | detach session => exact fun l hl => (hi l hl).detach
  | detachStream session stream =>
    intro l' hl'
    obtain ⟨l, hl, rfl⟩ := Option.map_eq_some_iff.mp hl'
    exact (hi l hl).detachStream
  | notifyClose stream =>
    intro l' hl'
    obtain ⟨l, hl, rfl⟩ := Option.map_eq_some_iff.mp hl'
    exact (hi l hl).notifyClose
  | sendAttach link session =>
    intro l' hl'
    obtain ⟨l, hl, rfl⟩ := Option.map_eq_some_iff.mp hl'
    split
    · exact (hi l hl).sendAttach (fun _ => rfl) (List.Subset.refl _) (List.Subset.refl _) rfl
    · exact (hi l hl).mono (Nat.le_succ _) (fun _ => rfl) (List.Subset.refl _) (List.Subset.refl _)
  | endView session | readEnded | collect sessions | dispatch => exact hi.same rfl rfl rfl rfl rfl
  | linkUp =>
    intro l hl
    cases hl
    exact linkInv_new _ _
  | attachNext =>
    obtain ⟨session, rest, hsup⟩ := hen
    simp only [RemoteHost.perform, RemoteHost.attachNext, hsup]
    exact (hi.attach session).same rfl rfl rfl rfl rfl
  | route => exact hi.route ho
  | linkDown =>
    intro l hl
    cases hl
  | resetStreams =>
    intro l hl
    cases (hd hen).symm.trans hl
  | hostHandle reply => exact Inv.map fun l hl => (hi l hl).handle reply
  | hostStarted id session reply =>
    obtain ⟨-, l, hl, hmem⟩ := hen
    refine Inv.map fun l' hl' => ?_
    rw [hl] at hl'
    cases hl'
    exact (hi l hl).started hmem reply
  | hostExit stream => exact Inv.map fun l hl => (hi l hl).exit
  | hostKicked session => exact Inv.map fun l hl => (hi l hl).kicked

/-- The run lemma. -/
theorem Inv.run {actions : List LinkAction} (hr : Run (clients.restrict InOrder) actions r) : r.Inv ∧ r.Down := by
  refine hr.invariant (I := fun r => r.Inv ∧ r.Down) ?_ fun s action s' hs hstep => ?_
  · rintro s rfl
    exact ⟨.new, fun h => by cases h⟩
  · exact ⟨hs.1.step hs.2 hstep.1 hstep.2, hs.2.step hstep.2⟩

/-- **One stream of the host for each view.**  The table has at most one stream of a session, and it is the one that
the view holds, unless the view's detach is between two of its sections.  Once nothing is on the way to or from the host
and no detach is under way, every stream that is open there is the one of the session's view. -/
theorem one_stream_per_view {actions : List LinkAction} (hr : Run (clients.restrict InOrder) actions r)
    (hl : r.link = some l) :
    (∀ session x y, l.streams x = some session → l.streams y = some session → x = y) ∧
      (∀ session x, l.streams x = some session → (session, x) ∉ r.closing → r.streamOf session = some x) ∧
      (l.toHost = [] → l.toClient = [] → r.closing = [] → r.notifying = [] → ∀ x hosted,
        l.hostStreams x = some hosted → hosted.exited = false → r.streamOf hosted.session = some x) := by
  have hi := (Inv.run hr).1 l hl
  refine ⟨hi.single, fun session x h hc ↦ ?_, fun hto hclient hclosing hnotifying x hosted h hopen ↦ ?_⟩
  · exact (hi.held session x h).resolve_right fun hclose ↦ hc hclose.1
  · cases hi.host x hosted h hopen with
    | held hheld => exact hheld
    | closing hc =>
      rw [hclosing] at hc
      cases hc
    | notifying hn =>
      rw [hnotifying] at hn
      cases hn
    | closed hc =>
      rw [hto] at hc
      cases hc
    | answered id before after hans =>
      rw [hclient] at hans
      cases before <;> cases hans

/-! ## A view and two tasks -/

/-- The actions are taken one after another. -/
def after (actions : List LinkAction) : RemoteHost := actions.foldl perform .new

def someSession : Str := "7f-1".toList

def opened : List LinkAction :=
  [.linkUp, .readEnded, .collect [], .dispatch, .view someSession, .viewLink someSession, .sendAttach 0 someSession,
    .hostHandle .opens]

theorem collect_none : RemoteHost.Enabled (after [.linkUp, .readEnded]) (.collect []) :=
  ⟨∅, rfl, nodup_nil, fun session => ⟨fun h => (by cases h), fun h => (by cases h.1)⟩⟩

theorem one_stream_per_view_opened : (after (opened ++ [.route])).streamOf someSession = some 1 := by
  have hr : Run (clients.restrict InOrder) (opened ++ [.route]) (after (opened ++ [.route])) := by
    suffices h : Performs (clients.restrict InOrder) perform .new (opened ++ [.route]) from (Run.init rfl).performs h
    refine ⟨⟨trivial, rfl, rfl⟩,
      ⟨trivial, rfl, rfl⟩, ⟨trivial, collect_none, rfl⟩, ⟨trivial, rfl, rfl⟩, ⟨fun _ ↦ rfl, trivial, rfl⟩,
      ⟨trivial, mem_cons_self .., rfl⟩, ⟨trivial, mem_cons_self .., rfl⟩,
      ⟨trivial, ⟨_, rfl, cons_ne_nil _ _⟩, rfl⟩, ⟨fun l id stream rest session hl hm hcall ↦ ?_,
        ⟨rfl, _, rfl, cons_ne_nil _ _⟩, rfl⟩, trivial⟩
    cases hl
    cases hm
    cases hcall
    exact ⟨rfl, rfl, fun x hx ↦ by cases hx⟩
  exact (one_stream_per_view hr rfl).2.2 rfl rfl rfl rfl 1 ⟨someSession, false⟩ rfl rfl

/-- The link comes up, a view is opened, and the supervisor collects it with the others. -/
def bothAttach : List LinkAction :=
  [.linkUp, .view someSession, .viewLink someSession, .readEnded, .collect [someSession], .attachNext, .dispatch,
    .sendAttach 0 someSession, .sendAttach 0 someSession, .hostHandle .opens, .hostHandle .opens, .route, .route]

theorem collect_one : RemoteHost.Enabled (after [.linkUp, .view someSession, .viewLink someSession, .readEnded])
    (.collect [someSession]) := by
  refine ⟨∅, rfl, nodup_singleton _, fun session => ?_⟩
  change session ∈ [someSession] ↔
    (Function.update (fun _ => none) someSession (some (View.mk none)) session).isSome = true ∧
      session ∉ (∅ : Finset Str)
  rw [Function.update_apply]
  split <;> simp_all

/-- **Two streams of one session.**  The caller of `view` and the supervisor attach the same view, and the host opens
a stream for each. -/
theorem both_attach : Run clients bothAttach (after bothAttach) ∧ ∃ l, (after bothAttach).link = some l ∧
    l.streams 1 = some someSession ∧ l.streams 2 = some someSession ∧
    (after bothAttach).streamOf someSession = some 2 := by
  suffices h : Performs clients perform .new bothAttach from ⟨(Run.init rfl).performs h, _, rfl, rfl, rfl, rfl⟩
  exact ⟨⟨rfl, rfl⟩, ⟨trivial, rfl⟩, ⟨mem_cons_self .., rfl⟩, ⟨rfl, rfl⟩, ⟨collect_one, rfl⟩,
    ⟨⟨_, _, rfl⟩, rfl⟩, ⟨rfl, rfl⟩, ⟨mem_cons_self .., rfl⟩, ⟨mem_cons_self .., rfl⟩,
    ⟨⟨_, rfl, cons_ne_nil _ _⟩, rfl⟩, ⟨⟨_, rfl, cons_ne_nil _ _⟩, rfl⟩,
    ⟨⟨rfl, _, rfl, cons_ne_nil _ _⟩, rfl⟩, ⟨⟨rfl, _, rfl, cons_ne_nil _ _⟩, rfl⟩, trivial⟩

/-- **A stream that nobody closes.**  The view is closed before the answer that opened its stream is handled; nothing
is on the way, and the stream is open at the host. -/
theorem early_detach_leaks : Run clients (opened ++ [.detach someSession, .route])
      (after (opened ++ [.detach someSession, .route])) ∧
    ∃ l, (after (opened ++ [.detach someSession, .route])).link = some l ∧ l.toHost = [] ∧ l.toClient = [] ∧
      l.hostStreams 1 = some ⟨someSession, false⟩ ∧
      (after (opened ++ [.detach someSession, .route])).views someSession = none := by
  suffices h : Performs clients perform .new (opened ++ [.detach someSession, .route]) from
    ⟨(Run.init rfl).performs h, _, rfl, rfl, rfl, rfl, rfl⟩
  exact ⟨⟨rfl, rfl⟩, ⟨rfl, rfl⟩, ⟨collect_none, rfl⟩, ⟨rfl, rfl⟩, ⟨trivial, rfl⟩, ⟨mem_cons_self .., rfl⟩,
    ⟨mem_cons_self .., rfl⟩, ⟨⟨_, rfl, cons_ne_nil _ _⟩, rfl⟩, ⟨trivial, rfl⟩,
    ⟨⟨rfl, _, rfl, cons_ne_nil _ _⟩, rfl⟩, trivial⟩

end RemoteHost

end NiumaTerm.Remote
