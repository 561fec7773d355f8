import NiumaTerm.Remote.SessionRegistry

/-!
# The viewers of a session

What the registry lists is what the channels have, as long as a channel takes only its own viewer out of
the registry and no view opens while a kick for its session waits.
-/

namespace NiumaTerm.Remote

open Rust Transition List

/-! ## What is compared -/

namespace ViewedHost

/-- How many viewers of the session the registry lists for the channel. -/
def listed (h : ViewedHost) (channel : ℕ) (session : Str) : ℕ :=
  (h.registry.viewers session).countP fun viewer => viewer.kicks = channel

def openViews (h : ViewedHost) (channel : ℕ) (session : Str) : ℕ :=
  (h.connections channel).elim 0 (·.openViews session)

def KickPending (h : ViewedHost) (channel : ℕ) (session : Str) : Prop :=
  ∃ c, h.connections channel = some c ∧ ∃ kick ∈ c.kicks, kick.session = session

/-- The viewer that the registry takes out for the key is the channel's, if there is one. -/
def OwnFirst (h : ViewedHost) (channel : ℕ) (key : PublicKey) (session : Str) : Prop :=
  ∀ viewer, ((h.registry.viewers session).find? fun viewer => viewer.key = key) = some viewer → viewer.kicks = channel

/-- A view closes when its own viewer is the first of the device's, a kick arrives when its session has no newer view
on the channel, and a stream's number is new. -/
def InOrder (h : ViewedHost) : ViewAction → Prop
  | .addView channel => ∀ c stream session, h.connections channel = some c →
    c.stage = .attaching (.terminal stream session) → stream ∉ c.streams.map Prod.fst
  | .streamClose channel stream | .leaveStream channel stream => ∀ c session, h.connections channel = some c →
    (stream, session) ∈ c.streams → h.OwnFirst channel c.key session
  | .agentDetach channel session | .leaveAgent channel session => ∀ c, h.connections channel = some c →
    session ∈ c.agents → h.OwnFirst channel c.key session
  | .receiveKick channel => ∀ c kick rest, h.connections channel = some c → c.kicks = kick :: rest →
    ∀ viewer ∈ h.registry.viewers kick.session, viewer.kicks ≠ channel
  | _ => True

/-- The channel's views of a session are at least its viewers, and while no kick waits they are as many. -/
structure Inv (h : ViewedHost) : Prop where
  bounded : ∀ channel session, h.listed channel session ≤ h.openViews channel session
  matched : ∀ channel session, ¬ h.KickPending channel session →
    h.listed channel session = h.openViews channel session
  keys : ∀ session, ∀ viewer ∈ h.registry.viewers session,
    ∃ c, h.connections viewer.kicks = some c ∧ c.key = viewer.key
  streams : ∀ channel c, h.connections channel = some c → (c.streams.map Prod.fst).Nodup
  ended : ∀ channel c, h.connections channel = some c → c.stage = .ended → c.streams = [] ∧ c.agents = ∅

end ViewedHost

/-! ## The tables -/

theorem countP_filter_fst {streams : List (BitVec 32 × Str)} (hnodup : (streams.map Prod.fst).Nodup)
    {stream : BitVec 32} {session : Str} (hmem : (stream, session) ∈ streams) (s : Str) :
    (streams.countP fun entry => entry.2 = s) =
      ((streams.filter fun entry => entry.1 ≠ stream).countP fun entry => entry.2 = s) +
        if session = s then 1 else 0 := by
  induction streams with
  | nil => cases hmem
  | cons entry rest ih =>
    rw [map_cons, nodup_cons] at hnodup
    rcases mem_cons.mp hmem with rfl | hrest
    · have hfilter : (rest.filter fun entry => entry.1 ≠ stream) = rest := by
        refine filter_eq_self.mpr fun e he => decide_eq_true fun heq => hnodup.1 ?_
        exact mem_map.mpr ⟨e, he, heq⟩
      rw [filter_cons_of_neg (by simp), hfilter, countP_cons]
      simp
    · have hne : entry.1 ≠ stream := fun heq => hnodup.1 (heq ▸ mem_map_of_mem hrest)
      rw [filter_cons_of_pos (by simpa using hne), countP_cons, countP_cons, ih hnodup.2 hrest]
      omega

namespace Connection

variable {c : Connection}

theorem openViews_insertStream {stream : BitVec 32} (hnew : stream ∉ c.streams.map Prod.fst) (session s : Str) :
    (c.insertStream stream session).openViews s = c.openViews s + if session = s then 1 else 0 := by
  have hfilter : (c.streams.filter fun entry => entry.1 ≠ stream) = c.streams := by
    refine filter_eq_self.mpr fun e he => decide_eq_true fun heq => hnew ?_
    exact mem_map.mpr ⟨e, he, heq⟩
  unfold openViews insertStream
  rw [hfilter, countP_cons]
  simp only [decide_eq_true_eq]
  omega

theorem openViews_removeStream (hnodup : (c.streams.map Prod.fst).Nodup) {stream : BitVec 32} {session : Str}
    (hmem : (stream, session) ∈ c.streams) (s : Str) :
    c.openViews s = (c.removeStream stream).openViews s + if session = s then 1 else 0 := by
  unfold openViews removeStream
  rw [countP_filter_fst hnodup hmem]
  dsimp only
  omega

theorem openViews_insertAgent {session : Str} (hnew : session ∉ c.agents) (stage : Stage) (s : Str) :
    Connection.openViews { c with agents := insert session c.agents, stage } s =
      c.openViews s + if session = s then 1 else 0 := by
  unfold openViews
  by_cases hs : session = s
  · subst hs
    simp [hnew]
  · simp [hs, Ne.symm hs]

theorem openViews_eraseAgent {session : Str} (hmem : session ∈ c.agents) (s : Str) :
    c.openViews s = Connection.openViews { c with agents := c.agents.erase session } s +
      if session = s then 1 else 0 := by
  unfold openViews
  by_cases hs : session = s
  · subst hs
    simp [hmem]
  · simp [hs, Ne.symm hs]

theorem openViews_kicked (session s : Str) :
    (c.kicked session).openViews s = if s = session then 0 else c.openViews s := by
  unfold openViews kicked
  by_cases hs : s = session
  · subst hs
    simp [countP_filter]
  · simp only [hs, Finset.mem_erase, countP_filter, if_false, ne_eq, not_false_eq_true, true_and]
    congr 1
    refine countP_congr fun entry _ => ?_
    simp only [Bool.and_eq_true, decide_eq_true_eq, decide_not, Bool.not_eq_eq_eq_not, Bool.not_true,
      decide_eq_false_iff_not, and_iff_left_iff_imp]
    exact fun he => he ▸ hs

end Connection

/-- What goes with the first viewer of a key. -/
theorem countP_eraseP_key (viewers : List Viewer) (key : PublicKey) (channel : ℕ) :
    (viewers.countP fun viewer => viewer.kicks = channel) =
      ((viewers.eraseP fun viewer => viewer.key = key).countP fun viewer => viewer.kicks = channel) +
        if (viewers.find? fun viewer => viewer.key = key).any (·.kicks = channel) then 1 else 0 := by
  induction viewers with
  | nil => rfl
  | cons viewer rest ih =>
    by_cases hk : viewer.key = key
    · rw [eraseP_cons_of_pos (by simpa using hk), find?_cons_of_pos (by simpa using hk), countP_cons]
      simp
    · rw [eraseP_cons_of_neg (by simpa using hk), find?_cons_of_neg (by simpa using hk), countP_cons,
        countP_cons, ih]
      omega

/-! ## Kicks -/

theorem kick_apply (k : Kick) (connections : ℕ → Option Connection) (viewers : List Viewer) (told : List ℕ)
    (channel : ℕ) : kick k connections viewers told channel =
      if channel ∈ viewers.map Viewer.kicks ∧ channel ∉ told then (connections channel).map (·.receive k)
      else connections channel := by
  induction viewers generalizing connections told with
  | nil => simp [kick]
  | cons viewer rest ih =>
    rw [kick]
    by_cases htold : viewer.kicks ∈ told
    · rw [if_pos htold, ih]
      refine if_congr ⟨fun hin => ⟨.tail _ hin.1, hin.2⟩, fun hin => ⟨?_, hin.2⟩⟩ rfl rfl
      exact (mem_cons.mp hin.1).resolve_left fun heq => hin.2 (heq ▸ htold)
    · rw [if_neg htold, ih]
      by_cases heq : channel = viewer.kicks
      · subst heq
        simp [htold]
      · simp [heq, Function.update_of_ne]

namespace ViewedHost

variable {h h' : ViewedHost} {channel : ℕ} {session : Str}

theorem kickViewers_apply (h : ViewedHost) (session : Str) (reason : EndReason) (channel : ℕ) :
    h.kickViewers session reason channel =
      if channel ∈ (h.registry.viewers session).map Viewer.kicks then
        (h.connections channel).map (·.receive ⟨session, reason⟩)
      else h.connections channel := by
  rw [kickViewers, kick_apply]
  simp

theorem receive_eq (c : Connection) (k : Kick) : (c.receive k).key = c.key ∧ (c.receive k).streams = c.streams ∧
    (c.receive k).agents = c.agents ∧ (c.receive k).stage = c.stage := by
  unfold Connection.receive
  split <;> exact ⟨rfl, rfl, rfl, rfl⟩

theorem mem_receive {c : Connection} (k : Kick) (hstage : c.stage ≠ .ended) : k ∈ (c.receive k).kicks := by
  rw [Connection.receive, if_neg hstage]
  exact mem_append_right _ (mem_singleton_self k)

theorem subset_receive (c : Connection) (k : Kick) : c.kicks ⊆ (c.receive k).kicks := by
  unfold Connection.receive
  split
  · exact List.Subset.refl _
  · exact subset_append_left ..

/-- After a kick a channel has the same views, and the kicks it had. -/
theorem kickViewers_eq_some {reason : EndReason} {c' : Connection}
    (hc : h.kickViewers session reason channel = some c') : ∃ c, h.connections channel = some c ∧ c'.key = c.key ∧
      c'.streams = c.streams ∧ c'.agents = c.agents ∧ c'.stage = c.stage ∧ c.kicks ⊆ c'.kicks := by
  rw [kickViewers_apply] at hc
  split at hc
  · obtain ⟨c, hc₀, rfl⟩ := Option.map_eq_some_iff.mp hc
    obtain ⟨hkey, hstreams, hagents, hstage⟩ := receive_eq c ⟨session, reason⟩
    exact ⟨c, hc₀, hkey, hstreams, hagents, hstage, subset_receive ..⟩
  · exact ⟨c', hc, rfl, rfl, rfl, rfl, List.Subset.refl _⟩

theorem kickViewers_of_eq_some {c : Connection} (hc : h.connections channel = some c) (session : Str)
    (reason : EndReason) : ∃ c', h.kickViewers session reason channel = some c' := by
  rw [kickViewers_apply, hc]
  split
  · exact ⟨_, rfl⟩
  · exact ⟨c, rfl⟩

theorem openViews_kickViewers {reason : EndReason} {r : SessionRegistry} (channel : ℕ) (s : Str) :
    openViews ⟨r, h.kickViewers session reason⟩ channel s = h.openViews channel s := by
  unfold openViews
  dsimp only
  rw [kickViewers_apply]
  cases hc : h.connections channel with
  | none => simp
  | some c =>
    split
    · obtain ⟨-, hstreams, hagents, -⟩ := receive_eq c ⟨session, reason⟩
      simp only [Option.map_some, Option.elim_some, Connection.openViews, hstreams, hagents]
    · rfl

/-! ## Every step in order keeps the invariant -/

theorem Inv.new : ViewedHost.new.Inv where
  bounded _ _ := Nat.le_refl 0
  matched _ _ _ := rfl
  keys _ _ hv := by cases hv
  streams _ _ hc := by cases hc
  ended _ _ hc := by cases hc

theorem Inv.key_eq (hi : h.Inv) {c : Connection} (hc : h.connections channel = some c) {viewer : Viewer}
    (hv : viewer ∈ h.registry.viewers session) (hkicks : viewer.kicks = channel) : viewer.key = c.key := by
  obtain ⟨c', hc', hkey⟩ := hi.keys session viewer hv
  rw [hkicks, hc] at hc'
  cases hc'
  exact hkey.symm

/-- A step of one channel: it may add viewers of its own and takes out only its own. -/
theorem Inv.on_channel (hi : h.Inv) {c' : Connection}
    (hconn : h'.connections = Function.update h.connections channel (some c'))
    (hkey : ∀ c, h.connections channel = some c → c'.key = c.key)
    (hviewers : ∀ s, ∀ viewer ∈ h'.registry.viewers s, viewer ∈ h.registry.viewers s ∨ viewer = ⟨c'.key, channel⟩)
    (hothers : ∀ s i, i ≠ channel → h'.listed i s = h.listed i s)
    (hown : ∀ s, h'.listed channel s ≤ c'.openViews s ∧
      ((∀ kick ∈ c'.kicks, kick.session ≠ s) → h'.listed channel s = c'.openViews s))
    (hstreams : (c'.streams.map Prod.fst).Nodup)
    (hended : c'.stage = .ended → c'.streams = [] ∧ c'.agents = ∅) : h'.Inv := by
  have hself : h'.connections channel = some c' := by rw [hconn, Function.update_self]
  have hother {i : ℕ} (hne : i ≠ channel) : h'.connections i = h.connections i := by
    rw [hconn, Function.update_of_ne hne]
  refine ⟨fun i s => ?_, fun i s hp => ?_, fun s viewer hv => ?_, fun i c hc => ?_, fun i c hc => ?_⟩
  · by_cases hne : i = channel
    · subst hne
      rw [openViews, hself]
      exact (hown s).1
    · rw [hothers s i hne, openViews, hother hne]
      exact hi.bounded i s
  · by_cases hne : i = channel
    · subst hne
      rw [openViews, hself]
      exact (hown s).2 fun kick hk hs => hp ⟨c', hself, kick, hk, hs⟩
    · rw [hothers s i hne, openViews, hother hne]
      refine hi.matched i s fun hpending => ?_
      obtain ⟨c, hc, hk⟩ := hpending
      exact hp ⟨c, (hother hne).trans hc, hk⟩
  · rcases hviewers s viewer hv with hold | rfl
    · obtain ⟨c, hc, hk⟩ := hi.keys s viewer hold
      by_cases hne : viewer.kicks = channel
      · exact ⟨c', hne ▸ hself, (hkey c (hne ▸ hc)).trans hk⟩
      · exact ⟨c, (hother hne).trans hc, hk⟩
    · exact ⟨c', hself, rfl⟩
  · by_cases hne : i = channel
    · rw [hne, hself] at hc
      cases hc
      exact hstreams
    · exact hi.streams i c ((hother hne).symm.trans hc)
  · by_cases hne : i = channel
    · rw [hne, hself] at hc
      cases hc
      exact hended
    · exact hi.ended i c ((hother hne).symm.trans hc)

/-- The channel's numbers, without the host around them. -/
theorem Inv.counts (hi : h.Inv) {c : Connection} (hc : h.connections channel = some c) (s : Str) :
    h.listed channel s ≤ c.openViews s ∧
      ((∀ kick ∈ c.kicks, kick.session ≠ s) → h.listed channel s = c.openViews s) := by
  have hb := hi.bounded channel s
  have hm := hi.matched channel s
  rw [openViews, hc] at hb hm
  refine ⟨hb, fun hnone => hm fun hpending => ?_⟩
  obtain ⟨c₀, hc₀, kick, hk, hs⟩ := hpending
  rw [hc] at hc₀
  cases hc₀
  exact hnone kick hk hs

/-- A step of one channel that the registry does not hear of. -/
theorem Inv.set (hi : h.Inv) {c c' : Connection} (hc : h.connections channel = some c) (hkey : c'.key = c.key)
    (hviews : ∀ s, c'.openViews s = c.openViews s) (hkicks : c'.kicks = c.kicks)
    (hstreams : c'.streams = c.streams) (hended : c'.stage = .ended → c'.streams = [] ∧ c'.agents = ∅) :
    (h.set channel c').Inv := by
  refine hi.on_channel rfl (fun c₀ hc₀ => ?_) (fun s viewer hv => .inl hv) (fun s i _ => rfl) (fun s => ?_)
    (hstreams ▸ hi.streams channel c hc) hended
  · rw [hc] at hc₀
    cases hc₀
    exact hkey
  · rw [hviews s, hkicks]
    exact hi.counts hc s

/-- One more viewer and one more view. -/
theorem Inv.add (hi : h.Inv) {c c' : Connection} (hc : h.connections channel = some c) (hkey : c'.key = c.key)
    (hviews : ∀ s, c'.openViews s = c.openViews s + if session = s then 1 else 0) (hkicks : c'.kicks = c.kicks)
    (hstreams : (c'.streams.map Prod.fst).Nodup) (hstage : c'.stage = .serving) :
    ({ h with registry := h.registry.addViewer session ⟨c.key, channel⟩ }.set channel c').Inv := by
  have hviewers (s : Str) : (h.registry.addViewer session ⟨c.key, channel⟩).viewers s =
      h.registry.viewers s ++ if session = s then [⟨c.key, channel⟩] else [] := by
    unfold SessionRegistry.addViewer
    by_cases hs : session = s
    · subst hs
      simp
    · simp [hs, Function.update_of_ne (Ne.symm hs)]
  have hlisted (i : ℕ) (s : Str) :
      listed ({ h with registry := h.registry.addViewer session ⟨c.key, channel⟩ }.set channel c') i s =
        h.listed i s + if session = s ∧ i = channel then 1 else 0 := by
    unfold listed ViewedHost.set
    dsimp only
    rw [hviewers, countP_append]
    congr 1
    by_cases hs : session = s <;> by_cases hci : channel = i <;> simp [hs, hci, eq_comm]
  refine hi.on_channel rfl (fun c₀ hc₀ => ?_) (fun s viewer hv => ?_) (fun s i hne => ?_) (fun s => ?_) hstreams
    fun hended => ?_
  · rw [hc] at hc₀
    cases hc₀
    exact hkey
  · change viewer ∈ (h.registry.addViewer session ⟨c.key, channel⟩).viewers s at hv
    rw [hviewers, mem_append] at hv
    refine hv.imp id fun hnew => ?_
    split at hnew
    · rw [mem_singleton.mp hnew, hkey]
    · cases hnew
  · simp [hlisted, hne]
  · rw [hlisted, hviews, hkicks]
    obtain ⟨hb, hm⟩ := hi.counts hc s
    simp only [and_true]
    exact ⟨Nat.add_le_add_right hb _, fun hnone => by rw [hm hnone]⟩
  · rw [hstage] at hended
    cases hended

/-- One viewer and one view less; the viewer, if there is one, is the channel's. -/
theorem Inv.remove (hi : h.Inv) {c c' : Connection} (hc : h.connections channel = some c)
    (hfirst : h.OwnFirst channel c.key session) (hkey : c'.key = c.key)
    (hviews : ∀ s, c.openViews s = c'.openViews s + if session = s then 1 else 0) (hkicks : c'.kicks = c.kicks)
    (hstreams : (c'.streams.map Prod.fst).Nodup) (hended : c'.stage = .ended → c'.streams = [] ∧ c'.agents = ∅) :
    ({ h with registry := h.registry.removeViewer session c.key }.set channel c').Inv := by
  have hviewers (s : Str) : (h.registry.removeViewer session c.key).viewers s =
      if session = s then (h.registry.viewers s).eraseP (fun viewer => viewer.key = c.key)
      else h.registry.viewers s := by
    unfold SessionRegistry.removeViewer
    by_cases hs : session = s
    · subst hs
      simp
    · simp [hs, Function.update_of_ne (Ne.symm hs)]
  have hlisted (i : ℕ) (s : Str) : h.listed i s =
      listed ({ h with registry := h.registry.removeViewer session c.key }.set channel c') i s +
        if session = s ∧ ((h.registry.viewers s).find? fun viewer => viewer.key = c.key).any (·.kicks = i) then 1
        else 0 := by
    unfold listed ViewedHost.set
    dsimp only
    rw [hviewers]
    by_cases hs : session = s
    · rw [if_pos hs, countP_eraseP_key _ c.key i]
      simp only [hs, true_and]
    · simp [hs]
  refine hi.on_channel rfl (fun c₀ hc₀ => ?_) (fun s viewer hv => ?_) (fun s i hne => ?_) (fun s => ?_) hstreams hended
  · rw [hc] at hc₀
    cases hc₀
    exact hkey
  · change viewer ∈ (h.registry.removeViewer session c.key).viewers s at hv
    rw [hviewers] at hv
    split at hv
    · exact .inl (mem_of_mem_eraseP hv)
    · exact .inl hv
  · rw [hlisted i s, if_neg, Nat.add_zero]
    rintro ⟨rfl, hany⟩
    obtain ⟨viewer, hfind, hkicks⟩ := (Option.any_eq_true _ _).mp hany
    exact hne ((of_decide_eq_true hkicks).symm.trans (hfirst viewer hfind))
  · obtain ⟨hb, hm⟩ := hi.counts hc s
    have hl := hlisted channel s
    have hv := hviews s
    rw [hkicks]
    by_cases hs : session = s
    · subst hs
      -- whom the registry takes out for the key is the channel's; nobody only if it lists none of its viewers
      have hnone : ¬ ((h.registry.viewers session).find? fun viewer => viewer.key = c.key).any (·.kicks = channel) →
          h.listed channel session = 0 := by
        intro hany
        refine countP_eq_zero.mpr fun viewer hv hkicks => hany ?_
        have hkicks := of_decide_eq_true hkicks
        have hsome : ((h.registry.viewers session).find? fun viewer => viewer.key = c.key).isSome := by
          refine find?_isSome.mpr ⟨viewer, hv, decide_eq_true (hi.key_eq hc hv hkicks)⟩
        obtain ⟨first, hfind⟩ := Option.isSome_iff_exists.mp hsome
        rw [hfind]
        exact decide_eq_true (hfirst first hfind)
      rw [if_pos rfl] at hv
      simp only [true_and] at hl
      split at hl
      · exact ⟨by omega, fun hk => by have := hm hk; omega⟩
      · rename_i hany
        have := hnone hany
        exact ⟨by omega, fun hk => by have := hm hk; omega⟩
    · rw [if_neg hs] at hv
      rw [if_neg fun hand => hs hand.1] at hl
      exact ⟨by omega, fun hk => by have := hm hk; omega⟩

/-- The viewers of a session are taken, and each of their channels has a kick for it. -/
theorem Inv.takeViewers (hi : h.Inv) {r : SessionRegistry} (reason : EndReason)
    (hviewers : r.viewers = Function.update h.registry.viewers session []) :
    (ViewedHost.mk r (h.kickViewers session reason)).Inv := by
  have hsame {s : Str} (hs : s ≠ session) : r.viewers s = h.registry.viewers s := by
    rw [hviewers, Function.update_of_ne hs]
  have hnone : r.viewers session = [] := by rw [hviewers, Function.update_self]
  refine ⟨fun i s => ?_, fun i s hp => ?_, fun s viewer hv => ?_, fun i c' hc' => ?_, fun i c' hc' => ?_⟩
  · rw [openViews_kickViewers]
    by_cases hs : s = session
    · rw [listed, hs, hnone]
      exact Nat.zero_le _
    · rw [listed, hsame hs]
      exact hi.bounded i s
  · -- a kick that waits in the channel waits there still
    have hold (hpending : h.KickPending i s) : False := by
      obtain ⟨c, hc, kick, hk, he⟩ := hpending
      obtain ⟨c', hc'⟩ := kickViewers_of_eq_some hc session reason
      obtain ⟨c₀, hc₀, -, -, -, -, hsub⟩ := kickViewers_eq_some hc'
      rw [hc] at hc₀
      cases hc₀
      exact hp ⟨c', hc', kick, hsub hk, he⟩
    rw [openViews_kickViewers, ← hi.matched i s hold]
    by_cases hs : s = session
    · -- and a viewer's channel has a new one
      subst hs
      rw [listed, hnone, countP_nil, eq_comm, listed]
      refine countP_eq_zero.mpr fun viewer hv hkicks => hp ?_
      have hkicks := of_decide_eq_true hkicks
      obtain ⟨c, hc, -⟩ := hi.keys s viewer hv
      rw [hkicks] at hc
      have hstage : c.stage ≠ .ended := by
        intro hended
        obtain ⟨hstreams, hagents⟩ := hi.ended i c hc hended
        have hb := (hi.counts hc s).1
        have hzero : c.openViews s = 0 := by simp [Connection.openViews, hstreams, hagents]
        have hpos : 0 < h.listed i s := countP_pos_iff.mpr ⟨viewer, hv, decide_eq_true hkicks⟩
        omega
      refine ⟨c.receive ⟨s, reason⟩, ?_, ⟨s, reason⟩, mem_receive _ hstage, rfl⟩
      change h.kickViewers s reason i = _
      rw [kickViewers_apply, if_pos (mem_map.mpr ⟨viewer, hv, hkicks⟩), hc]
      rfl
    · rw [listed, listed, hsame hs]
  · by_cases hs : s = session
    · rw [hs, hnone] at hv
      cases hv
    · rw [hsame hs] at hv
      obtain ⟨c, hc, hkey⟩ := hi.keys s viewer hv
      obtain ⟨c', hc'⟩ := kickViewers_of_eq_some hc session reason
      obtain ⟨c₀, hc₀, hkey', -⟩ := kickViewers_eq_some hc'
      rw [hc] at hc₀
      cases hc₀
      exact ⟨c', hc', hkey'.trans hkey⟩
  · obtain ⟨c, hc, -, hstreams, -⟩ := kickViewers_eq_some hc'
    exact hstreams ▸ hi.streams i c hc
  · intro hended
    obtain ⟨c, hc, -, hstreams, hagents, hstage, -⟩ := kickViewers_eq_some hc'
    rw [hstreams, hagents]
    exact hi.ended i c hc (hstage ▸ hended)

/-- The channel receives its first kick. -/
theorem Inv.receiveKick (hi : h.Inv) {c : Connection} {kick : Kick} {rest : List Kick}
    (hc : h.connections channel = some c) (hkicks : c.kicks = kick :: rest) (hstage : c.stage = .serving)
    (hnone : ∀ viewer ∈ h.registry.viewers kick.session, viewer.kicks ≠ channel) :
    (h.set channel { c.kicked kick.session with kicks := rest }).Inv := by
  have hviews (s : Str) : Connection.openViews { c.kicked kick.session with kicks := rest } s =
      if s = kick.session then 0 else c.openViews s := Connection.openViews_kicked kick.session s
  refine hi.on_channel rfl (fun c₀ hc₀ => ?_) (fun s viewer hv => .inl hv) (fun s i _ => rfl) (fun s => ?_) ?_
    fun hended => ?_
  · rw [hc] at hc₀
    cases hc₀
    rfl
  · rw [hviews]
    by_cases hs : s = kick.session
    · subst hs
      have hzero : h.listed channel kick.session = 0 :=
        countP_eq_zero.mpr fun viewer hv hk => hnone viewer hv (of_decide_eq_true hk)
      change h.listed channel kick.session ≤ _ ∧ (_ → h.listed channel kick.session = _)
      rw [if_pos rfl, hzero]
      exact ⟨Nat.le_refl 0, fun _ => rfl⟩
    · rw [if_neg hs]
      obtain ⟨hb, hm⟩ := hi.counts hc s
      refine ⟨hb, fun hrest => hm fun k hk => ?_⟩
      rw [hkicks] at hk
      rcases mem_cons.mp hk with rfl | hk
      · exact Ne.symm hs
      · exact hrest k hk
  · exact (filter_sublist.map Prod.fst).nodup (hi.streams channel c hc)
  · change c.stage = .ended at hended
    rw [hstage] at hended
    cases hended

/-- The channel is gone, and the kicks that wait for it. -/
theorem Inv.drop (hi : h.Inv) {c : Connection} (hc : h.connections channel = some c) (hstreams : c.streams = [])
    (hagents : c.agents = ∅) : (h.set channel { c with kicks := [], stage := .ended }).Inv := by
  have hzero (s : Str) : c.openViews s = 0 := by simp [Connection.openViews, hstreams, hagents]
  refine hi.on_channel rfl (fun c₀ hc₀ => ?_) (fun s viewer hv => .inl hv) (fun s i _ => rfl) (fun s => ?_)
    (hi.streams channel c hc) fun _ => ⟨hstreams, hagents⟩
  · rw [hc] at hc₀
    cases hc₀
    rfl
  · have hb := (hi.counts hc s).1
    have hle : h.listed channel s ≤ 0 := (hzero s) ▸ hb
    exact ⟨hb, fun _ => (Nat.le_zero.mp hle).trans (hzero s).symm⟩

theorem at?_eq_some {stage : Stage} {c : Connection} (hc : h.at? channel stage = some c) :
    h.connections channel = some c ∧ c.stage = stage := by
  obtain ⟨hc, hstage⟩ := Option.filter_eq_some_iff.mp hc
  exact ⟨hc, of_decide_eq_true hstage⟩

theorem mem_of_lookup {streams : List (BitVec 32 × Str)} {stream : BitVec 32}
    (hl : streams.lookup stream = some session) : (stream, session) ∈ streams := by
  obtain ⟨before, after, rfl, -⟩ := lookup_eq_some_iff.mp hl
  exact mem_append_right _ (mem_cons_self ..)

theorem Inv.addView (hi : h.Inv) {c : Connection} (hc : h.connections channel = some c) {view : PendingAttach}
    (hnew : ∀ stream session, view = .terminal stream session → stream ∉ c.streams.map Prod.fst) :
    (h.addView channel c view).Inv := by
  cases view with
  | terminal stream session =>
    refine hi.add hc rfl (fun s => ?_) rfl ?_ rfl
    · exact Connection.openViews_insertStream (hnew stream session rfl) session s
    · refine nodup_cons.mpr ⟨fun hmem => ?_, (filter_sublist.map Prod.fst).nodup (hi.streams channel c hc)⟩
      obtain ⟨entry, hentry, heq⟩ := mem_map.mp hmem
      exact (of_decide_eq_true (mem_filter.mp hentry).2) heq
  | agent session =>
    rw [ViewedHost.addView]
    split
    · refine hi.set hc rfl (fun _ => rfl) rfl rfl fun hended => ?_
      cases hended
    · next hagent =>
      exact hi.add hc rfl (Connection.openViews_insertAgent hagent .serving) rfl (hi.streams channel c hc) rfl

theorem Inv.closeStream (hi : h.Inv) {c : Connection} (hc : h.connections channel = some c) {stream : BitVec 32}
    (hmem : (stream, session) ∈ c.streams) (hstage : c.stage ≠ .ended)
    (hfirst : h.OwnFirst channel c.key session) : (h.closeStream channel c stream session).Inv := by
  have hnodup := hi.streams channel c hc
  refine hi.remove hc hfirst rfl (Connection.openViews_removeStream hnodup hmem) rfl ?_ fun hended => ?_
  · exact (filter_sublist.map Prod.fst).nodup hnodup
  · exact absurd hended hstage

theorem Inv.closeAgent (hi : h.Inv) {c : Connection} (hc : h.connections channel = some c)
    (hmem : session ∈ c.agents) (hstage : c.stage ≠ .ended)
    (hfirst : h.OwnFirst channel c.key session) : (h.closeAgent channel c session).Inv := by
  refine hi.remove hc hfirst rfl (Connection.openViews_eraseAgent hmem) rfl (hi.streams channel c hc) fun hended => ?_
  exact absurd hended hstage

/-- A step that changes neither the viewers nor the channels. -/
theorem Inv.congr (hi : h.Inv) (hviewers : h'.registry.viewers = h.registry.viewers)
    (hconn : h'.connections = h.connections) : h'.Inv := by
  obtain ⟨bounded, matched, keys, streams, ended⟩ := hi
  refine ⟨fun i s => ?_, fun i s hp => ?_, fun s viewer hv => ?_, fun i c hc => ?_, fun i c hc => ?_⟩
  · rw [listed, openViews, hviewers, hconn]
    exact bounded i s
  · rw [listed, openViews, hviewers, hconn]
    rw [KickPending, hconn] at hp
    exact matched i s hp
  · rw [hviewers] at hv
    rw [hconn]
    exact keys s viewer hv
  · exact streams i c (hconn ▸ hc)
  · exact ended i c (hconn ▸ hc)

/-- The step lemma. -/
theorem Inv.step (hi : h.Inv) {action : ViewAction} (ho : h.InOrder action) (hs : h.step action = some h') :
    h'.Inv := by
  cases action with
  | register session origin | registerAgent session =>
    cases hs
    exact hi.congr rfl rfl
  | connect i key =>
    rw [ViewedHost.step] at hs
    split at hs
    · next hnone =>
      cases hs
      have hzero (s : Str) : h.listed i s = 0 := by
        have hb := hi.bounded i s
        rw [openViews, hnone] at hb
        exact Nat.le_zero.mp hb
      refine hi.on_channel rfl (fun c hc => ?_) (fun s viewer hv => .inl hv) (fun s j _ => rfl) (fun s => ?_)
        nodup_nil fun hended => ?_
      · rw [hnone] at hc
        cases hc
      · exact ⟨(hzero s).le, fun _ => hzero s⟩
      · cases hended
    · cases hs
  | attach i session =>
    obtain ⟨c, hat, rfl⟩ := Option.map_eq_some_iff.mp hs
    obtain ⟨hc, hstage⟩ := at?_eq_some hat
    split
    · exact hi
    · refine hi.set hc rfl (fun _ => rfl) rfl rfl fun hended => ?_
      cases hended
  | attachAgent i session =>
    obtain ⟨c, hat, rfl⟩ := Option.map_eq_some_iff.mp hs
    obtain ⟨hc, hstage⟩ := at?_eq_some hat
    split
    · refine hi.set hc rfl (fun _ => rfl) rfl rfl fun hended => ?_
      cases hended
    · exact hi
  | addView i =>
    obtain ⟨c, hc, hs⟩ := Option.bind_eq_some_iff.mp hs
    split at hs
    · next view hstage =>
      cases hs
      exact hi.addView hc fun stream session hview => ho c stream session hc (hstage.trans (congrArg _ hview))
    · cases hs
  | streamClose i stream =>
    obtain ⟨c, hat, rfl⟩ := Option.map_eq_some_iff.mp hs
    obtain ⟨hc, hstage⟩ := at?_eq_some hat
    split
    · next session hl =>
      have hmem := mem_of_lookup hl
      exact hi.closeStream hc hmem (by simp [hstage]) (ho c session hc hmem)
    · exact hi
  | agentDetach i session =>
    obtain ⟨c, hat, rfl⟩ := Option.map_eq_some_iff.mp hs
    obtain ⟨hc, hstage⟩ := at?_eq_some hat
    split
    · next hmem => exact hi.closeAgent hc hmem (by simp [hstage]) (ho c hc hmem)
    · exact hi
  | takeBack session =>
    cases hs
    exact hi.takeViewers .takenBack rfl
  | unregister session =>
    cases hs
    exact hi.takeViewers .closed rfl
  | closeRemote session =>
    cases hs
    split
    · exact hi.takeViewers .closed rfl
    · exact hi
  | receiveKick i =>
    obtain ⟨c, hat, hs⟩ := Option.bind_eq_some_iff.mp hs
    obtain ⟨hc, hstage⟩ := at?_eq_some hat
    split at hs
    · next kick rest hkicks =>
      cases hs
      exact hi.receiveKick hc hkicks hstage (ho c kick rest hc hkicks)
    · cases hs
  | endLoop i =>
    obtain ⟨c, hat, rfl⟩ := Option.map_eq_some_iff.mp hs
    obtain ⟨hc, -⟩ := at?_eq_some hat
    refine hi.set hc rfl (fun _ => rfl) rfl rfl fun hended => ?_
    cases hended
  | leaveStream i stream =>
    obtain ⟨c, hat, hs⟩ := Option.bind_eq_some_iff.mp hs
    obtain ⟨hc, hstage⟩ := at?_eq_some hat
    obtain ⟨session, hl, rfl⟩ := Option.map_eq_some_iff.mp hs
    have hmem := mem_of_lookup hl
    exact hi.closeStream hc hmem (by simp [hstage]) (ho c session hc hmem)
  | leaveAgent i session =>
    obtain ⟨c, hat, hs⟩ := Option.bind_eq_some_iff.mp hs
    obtain ⟨hc, hstage⟩ := at?_eq_some hat
    split at hs
    · next hmem =>
      cases hs
      exact hi.closeAgent hc hmem.2 (by simp [hstage]) (ho c hc hmem.2)
    · cases hs
  | drop i =>
    obtain ⟨c, hat, hs⟩ := Option.bind_eq_some_iff.mp hs
    obtain ⟨hc, -⟩ := at?_eq_some hat
    split at hs
    · next hempty =>
      cases hs
      exact hi.drop hc hempty.1 hempty.2
    · cases hs

/-- The run lemma. -/
theorem Inv.run {actions : List ViewAction} (hr : Run (viewedHosts.restrict InOrder) actions h) : h.Inv :=
  hr.invariant (by rintro s rfl; exact .new) fun _ _ _ hi hs => hi.step hs.1 hs.2

/-- **The viewers of a session are the open views.**  While no kick for the session waits in a channel, the registry
lists one viewer for each of the channel's terminal streams and agent views of it, and each viewer listed has the key
of its channel. -/
theorem viewers_match {actions : List ViewAction} (hr : Run (viewedHosts.restrict InOrder) actions h)
    (session : Str) :
    (∀ channel, ¬ h.KickPending channel session → h.listed channel session = h.openViews channel session) ∧
      ∀ viewer ∈ h.registry.viewers session, ∃ c, h.connections viewer.kicks = some c ∧ c.key = viewer.key :=
  ⟨fun channel ↦ (Inv.run hr).matched channel session, (Inv.run hr).keys session⟩

/-! ## Two channels and one session -/

/-- The actions are taken one after another. -/
def perform (h : ViewedHost) (action : ViewAction) : ViewedHost := (h.step action).getD h

def after (actions : List ViewAction) : ViewedHost := actions.foldl perform .new

def someTerminal : Str := "7f-1".toList

/-- The channels 0 and 1 attach to a terminal. -/
def bothAttach (key₀ key₁ : PublicKey) : List ViewAction :=
  [.register someTerminal .remote, .connect 0 key₀, .attach 0 someTerminal, .addView 0, .connect 1 key₁,
    .attach 1 someTerminal, .addView 1]

/-- Two devices: one closes its view, the other loses its own and attaches again. -/
def twoDevices : List ViewAction :=
  bothAttach 1 2 ++ [.streamClose 1 1, .takeBack someTerminal, .receiveKick 0, .attach 0 someTerminal, .addView 0]

theorem twoDevices_run : Run (viewedHosts.restrict InOrder) twoDevices (after twoDevices) := by
  suffices h : Performs (viewedHosts.restrict InOrder) perform .new twoDevices from (Run.init rfl).performs h
  refine ⟨⟨trivial, rfl⟩, ⟨trivial, rfl⟩, ⟨trivial, rfl⟩, ⟨fun c stream session hc hstage => ?_, rfl⟩,
    ⟨trivial, rfl⟩, ⟨trivial, rfl⟩, ⟨fun c stream session hc hstage => ?_, rfl⟩,
    ⟨fun c session hc hmem viewer hv => ?_, rfl⟩, ⟨trivial, rfl⟩, ⟨fun c kick rest hc hkicks viewer hv => ?_, rfl⟩,
    ⟨trivial, rfl⟩, ⟨fun c stream session hc hstage => ?_, rfl⟩, trivial⟩
  · cases hc
    exact not_mem_nil
  · cases hc
    exact not_mem_nil
  · cases hc
    cases hmem with
    | head =>
      cases hv
      rfl
    | tail _ hmem => cases hmem
  · cases hc
    cases hkicks
    cases hv
  · cases hc
    exact not_mem_nil

theorem viewers_match_twoDevices : (after twoDevices).listed 0 someTerminal = 1 ∧
    (after twoDevices).listed 0 someTerminal = (after twoDevices).openViews 0 someTerminal := by
  refine ⟨by decide +kernel, (viewers_match twoDevices_run someTerminal).1 0 ?_⟩
  rintro ⟨c, hc, kick, hk, -⟩
  cases hc
  cases hk

/-- One device with two channels, of which the second closes its view. -/
def sameDevice : List ViewAction := bothAttach 1 1 ++ [.streamClose 1 1]

/-- **The viewer of another channel goes.**  The second channel closes its view, and the registry takes out the viewer
of the first, which is still open and which no kick reaches from now on. -/
theorem other_channel_loses_viewer : Run viewedHosts sameDevice (after sameDevice) ∧
    (∀ channel session, ¬ (after sameDevice).KickPending channel session) ∧
    (after sameDevice).listed 0 someTerminal = 0 ∧ (after sameDevice).openViews 0 someTerminal = 1 ∧
    (after sameDevice).listed 1 someTerminal = 1 ∧ (after sameDevice).openViews 1 someTerminal = 0 := by
  have hperforms : Performs viewedHosts perform .new sameDevice := ⟨rfl, rfl, rfl, rfl, rfl, rfl, rfl, rfl, trivial⟩
  refine ⟨(Run.init rfl).performs hperforms, ?_, by decide +kernel, by decide +kernel, by decide +kernel,
    by decide +kernel⟩
  rintro (_ | _ | channel) session ⟨c, hc, kick, hk, -⟩
  · cases hc
    cases hk
  · cases hc
    cases hk
  · cases hc

/-- The channel attaches again before it has received its kick. -/
def lateKick : List ViewAction :=
  [.register someTerminal .remote, .connect 0 1, .attach 0 someTerminal, .addView 0, .takeBack someTerminal,
    .attach 0 someTerminal, .addView 0, .receiveKick 0]

/-- **A kick closes a newer view.**  Its viewer stays, and no view is left to take it out. -/
theorem late_kick_leaves_viewer : Run viewedHosts lateKick (after lateKick) ∧
    (∀ channel session, ¬ (after lateKick).KickPending channel session) ∧
    (after lateKick).listed 0 someTerminal = 1 ∧ (after lateKick).openViews 0 someTerminal = 0 := by
  have hperforms : Performs viewedHosts perform .new lateKick := ⟨rfl, rfl, rfl, rfl, rfl, rfl, rfl, rfl, trivial⟩
  refine ⟨(Run.init rfl).performs hperforms, ?_, by decide +kernel, by decide +kernel⟩
  rintro (_ | channel) session ⟨c, hc, kick, hk, -⟩
  · cases hc
    cases hk
  · cases hc

end ViewedHost

end NiumaTerm.Remote
