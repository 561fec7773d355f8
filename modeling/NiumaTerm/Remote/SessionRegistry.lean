import NiumaTerm.Remote.Host
import Mathlib.Data.Finset.Basic

/-!
# The registry of sessions

The registry lists one viewer for each view that a device has of a session, and each channel has a table
of its views.  When the host ends all views of a session it takes the viewers out and sends each channel a
kick, which waits until the channel's task receives it.  An action of `viewedHosts` is one lock section.
-/

namespace NiumaTerm.Remote

open Rust Transition

inductive Origin
  | tab
  | remote
  | unknown
deriving DecidableEq

inductive EndReason
  | takenBack
  | closed
  | unknown

structure Kick where
  session : Str
  reason : EndReason

/-- `kicks` is the number of the channel that the sender reaches. -/
structure Viewer where
  key : PublicKey
  kicks : ℕ

/-! ## The registry -/

/-- The terminals with their origin, the agents, and the viewers of each. -/
structure SessionRegistry where
  sessions : Str → Option Origin
  agents : Str → Bool
  viewers : Str → List Viewer

namespace SessionRegistry

def empty : SessionRegistry where
  sessions := fun _ => none
  agents := fun _ => false
  viewers := fun _ => []

variable (r : SessionRegistry) (session : Str)

def register (origin : Origin) : SessionRegistry :=
  { r with sessions := Function.update r.sessions session (some origin) }

def registerAgent : SessionRegistry := { r with agents := Function.update r.agents session true }

def addViewer (viewer : Viewer) : SessionRegistry :=
  { r with viewers := Function.update r.viewers session (r.viewers session ++ [viewer]) }

/-- One view of the session by the device with the key closed: the first of its viewers goes. -/
def removeViewer (key : PublicKey) : SessionRegistry :=
  { r with viewers := Function.update r.viewers session ((r.viewers session).eraseP fun viewer => viewer.key = key) }

def takeViewers : SessionRegistry := { r with viewers := Function.update r.viewers session [] }

/-- The session goes, and its viewers. -/
def remove : SessionRegistry :=
  { r.takeViewers session with
    sessions := Function.update r.sessions session none
    agents := Function.update r.agents session false }

end SessionRegistry

/-! ## The channels -/

/-- A view that a request has looked up and is about to add. -/
inductive PendingAttach
  | terminal (stream : BitVec 32) (session : Str)
  | agent (session : Str)
deriving DecidableEq

inductive Stage
  | serving
  | attaching (view : PendingAttach)
  /-- The loop is over; the views that are left are taken out one by one. -/
  | ending
  | ended
deriving DecidableEq

structure Connection where
  key : PublicKey
  streams : List (BitVec 32 × Str)
  nextStream : BitVec 32
  agents : Finset Str
  kicks : List Kick
  stage : Stage

namespace Connection

def new (key : PublicKey) : Connection where
  key := key
  streams := []
  nextStream := 1
  agents := ∅
  kicks := []
  stage := .serving

variable (c : Connection)

def insertStream (stream : BitVec 32) (session : Str) : Connection :=
  { c with streams := (stream, session) :: c.streams.filter fun entry => entry.1 ≠ stream }

def removeStream (stream : BitVec 32) : Connection :=
  { c with streams := c.streams.filter fun entry => entry.1 ≠ stream }

/-- The host ended this device's views of the session. -/
def kicked (session : Str) : Connection :=
  { c with
    streams := c.streams.filter fun entry => entry.2 ≠ session
    agents := c.agents.erase session }

/-- A kick for a channel that is gone is lost. -/
def receive (kick : Kick) : Connection :=
  if c.stage = .ended then c else { c with kicks := c.kicks ++ [kick] }

/-- How many terminal streams and agent views of the session are open. -/
def openViews (session : Str) : ℕ :=
  (c.streams.countP fun entry => entry.2 = session) + if session ∈ c.agents then 1 else 0

end Connection

/-! ## The host -/

structure ViewedHost where
  registry : SessionRegistry
  connections : ℕ → Option Connection

/-- Each channel among the viewers is told once. -/
def kick (kick : Kick) (connections : ℕ → Option Connection) :
    List Viewer → (told : List ℕ) → ℕ → Option Connection
  | [], _ => connections
  | viewer :: rest, told =>
    if viewer.kicks ∈ told then Remote.kick kick connections rest told
    else
      Remote.kick kick
        (Function.update connections viewer.kicks ((connections viewer.kicks).map (·.receive kick))) rest
        (viewer.kicks :: told)

inductive ViewAction
  | register (session : Str) (origin : Origin)
  | registerAgent (session : Str)
  | connect (channel : ℕ) (key : PublicKey)
  /-- The session is looked up. -/
  | attach (channel : ℕ) (session : Str)
  | attachAgent (channel : ℕ) (session : Str)
  /-- The viewer and the view are added. -/
  | addView (channel : ℕ)
  | streamClose (channel : ℕ) (stream : BitVec 32)
  | agentDetach (channel : ℕ) (session : Str)
  | takeBack (session : Str)
  | unregister (session : Str)
  | closeRemote (session : Str)
  | receiveKick (channel : ℕ)
  | endLoop (channel : ℕ)
  | leaveStream (channel : ℕ) (stream : BitVec 32)
  | leaveAgent (channel : ℕ) (session : Str)
  | drop (channel : ℕ)

namespace ViewedHost

variable (h : ViewedHost)

/-- The channel, if it is at that stage. -/
def at? (channel : ℕ) (stage : Stage) : Option Connection :=
  (h.connections channel).filter fun c => c.stage = stage

def set (channel : ℕ) (c : Connection) : ViewedHost :=
  { h with connections := Function.update h.connections channel (some c) }

/-- The view is added to the channel's table, and a viewer to the registry. -/
def addView (channel : ℕ) (c : Connection) : PendingAttach → ViewedHost
  | .terminal stream session =>
    { h with registry := h.registry.addViewer session ⟨c.key, channel⟩ }.set channel
      { c.insertStream stream session with stage := .serving }
  | .agent session =>
    -- a repeated attach replaces the view: the device is still one viewer
    if session ∈ c.agents then h.set channel { c with stage := .serving }
    else
      { h with registry := h.registry.addViewer session ⟨c.key, channel⟩ }.set channel
        { c with agents := insert session c.agents, stage := .serving }

def closeStream (channel : ℕ) (c : Connection) (stream : BitVec 32) (session : Str) : ViewedHost :=
  { h with registry := h.registry.removeViewer session c.key }.set channel (c.removeStream stream)

def closeAgent (channel : ℕ) (c : Connection) (session : Str) : ViewedHost :=
  { h with registry := h.registry.removeViewer session c.key }.set channel
    { c with agents := c.agents.erase session }

/-- The channels of the session's viewers are told why the views end. -/
def kickViewers (session : Str) (reason : EndReason) : ℕ → Option Connection :=
  kick ⟨session, reason⟩ h.connections (h.registry.viewers session) []

def takeBack (session : Str) : ViewedHost where
  registry := h.registry.takeViewers session
  connections := h.kickViewers session .takenBack

def unregister (session : Str) : ViewedHost where
  registry := h.registry.remove session
  connections := h.kickViewers session .closed

/-- A terminal that a device started ends. -/
def closeRemote (session : Str) : ViewedHost where
  registry := { h.registry.takeViewers session with sessions := Function.update h.registry.sessions session none }
  connections := h.kickViewers session .closed

def step : ViewAction → Option ViewedHost
  | .register session origin => some { h with registry := h.registry.register session origin }
  | .registerAgent session => some { h with registry := h.registry.registerAgent session }
  | .connect channel key => if h.connections channel = none then some (h.set channel (.new key)) else none
  | .attach channel session => (h.at? channel .serving).map fun c =>
    if h.registry.sessions session = none then h
    else
      h.set channel
        { c with nextStream := c.nextStream + 1, stage := .attaching (.terminal c.nextStream session) }
  | .attachAgent channel session => (h.at? channel .serving).map fun c =>
    if h.registry.agents session then h.set channel { c with stage := .attaching (.agent session) } else h
  | .addView channel => (h.connections channel).bind fun c =>
    match c.stage with
    | .attaching view => some (h.addView channel c view)
    | _ => none
  | .streamClose channel stream => (h.at? channel .serving).map fun c =>
    match c.streams.lookup stream with
    | some session => h.closeStream channel c stream session
    | none => h
  | .agentDetach channel session => (h.at? channel .serving).map fun c =>
    if session ∈ c.agents then h.closeAgent channel c session else h
  | .takeBack session => some (h.takeBack session)
  | .unregister session => some (h.unregister session)
  | .closeRemote session =>
    some (if h.registry.sessions session = some .remote then h.closeRemote session else h)
  | .receiveKick channel => (h.at? channel .serving).bind fun c =>
    match c.kicks with
    | kick :: rest => some (h.set channel { c.kicked kick.session with kicks := rest })
    | [] => none
  | .endLoop channel => (h.at? channel .serving).map fun c => h.set channel { c with stage := .ending }
  | .leaveStream channel stream => (h.at? channel .ending).bind fun c =>
    (c.streams.lookup stream).map (h.closeStream channel c stream)
  | .leaveAgent channel session => (h.at? channel .ending).bind fun c =>
    if c.streams = [] ∧ session ∈ c.agents then some (h.closeAgent channel c session) else none
  | .drop channel => (h.at? channel .ending).bind fun c =>
    if c.streams = [] ∧ c.agents = ∅ then some (h.set channel { c with kicks := [], stage := .ended }) else none

def new : ViewedHost where
  registry := .empty
  connections := fun _ => none

end ViewedHost

def viewedHosts : System ViewedHost ViewAction where
  init h := h = .new
  step h action h' := h.step action = some h'

end NiumaTerm.Remote
