import NiumaTerm.Lib.Str
import NiumaTerm.Lib.Transition
import Mathlib.Data.Finset.Basic

/-!
# A client's link to its host

A link has the calls that wait for an answer, a table from stream numbers to sessions, and the messages
on the way.  Whoever opens a view and the supervisor both send attaches; each action of `clients` is one
lock section of one of them.
-/

namespace NiumaTerm.Remote

open Rust Transition

abbrev StreamId := BitVec 32

structure View where
  stream : Option StreamId

/-! ## Messages -/

inductive ToHost
  | attach (id : ℕ) (session : Str)
  | streamClose (stream : StreamId)

inductive ToClient
  | attached (id : ℕ) (stream : StreamId)
  | failed (id : ℕ) (notFound : Bool)
  | sessionEnded (session : Str)
  | exit (stream : StreamId)

/-- What the host makes of an attach; a tab whose shell has not started is started first. -/
inductive Reply
  | opens
  | fails (notFound : Bool)
  | starts

structure HostStream where
  session : Str
  exited : Bool

/-! ## The link -/

/-- `starting` are attaches that wait at the host for their tab. -/
structure Link where
  number : ℕ
  calls : ℕ → Option Str
  streams : StreamId → Option Str
  toHost : List ToHost
  starting : List (ℕ × Str)
  hostStreams : StreamId → Option HostStream
  nextStream : StreamId
  toClient : List ToClient

namespace Link

def new (number : ℕ) : Link where
  number := number
  calls := fun _ => none
  streams := fun _ => none
  toHost := []
  starting := []
  hostStreams := fun _ => none
  nextStream := 1
  toClient := []

variable (l : Link)

def sendAttach (id : ℕ) (session : Str) : Link :=
  { l with calls := Function.update l.calls id (some session), toHost := l.toHost ++ [.attach id session] }

def removeStream (stream : StreamId) : Link := { l with streams := Function.update l.streams stream none }

def sendClose (stream : StreamId) : Link := { l with toHost := l.toHost ++ [.streamClose stream] }

/-! ### The host's end -/

def answer (id : ℕ) (session : Str) : Reply → Link
  | .opens =>
    { l with
      hostStreams := Function.update l.hostStreams l.nextStream (some ⟨session, false⟩)
      nextStream := l.nextStream + 1
      toClient := l.toClient ++ [.attached id l.nextStream] }
  | .fails notFound => { l with toClient := l.toClient ++ [.failed id notFound] }
  | .starts => { l with starting := l.starting ++ [(id, session)] }

/-- The host handles the next message. -/
def handle (reply : Reply) : Link :=
  match l.toHost with
  | [] => l
  | .attach id session :: rest => { l with toHost := rest }.answer id session reply
  | .streamClose stream :: rest =>
    { l with toHost := rest, hostStreams := Function.update l.hostStreams stream none }

/-- The tab is started, or is not. -/
def started (id : ℕ) (session : Str) (reply : Reply) : Link :=
  { l with starting := l.starting.erase (id, session) }.answer id session reply

/-- The session's shell ends, and the stream with it. -/
def exit (stream : StreamId) : Link :=
  { l with
    hostStreams := Function.update l.hostStreams stream
      ((l.hostStreams stream).map fun hosted => { hosted with exited := true })
    toClient := l.toClient ++ [.exit stream] }

/-- The host ended this device's views of the session. -/
def kicked (session : Str) : Link :=
  { l with
    hostStreams := fun stream => (l.hostStreams stream).filter fun hosted => hosted.session ≠ session
    toClient := l.toClient ++ [.sessionEnded session] }

end Link

/-! ## The client -/

/-- Where the supervisor is: it connects, reads which views have ended, collects the others, attaches them, routes
messages, and after the link has gone takes the streams off the views. -/
inductive Supervisor
  | connecting
  | connected
  | collecting (ended : Finset Str)
  | attaching (sessions : List Str)
  | dispatching
  | closing

structure RemoteHost where
  views : Str → Option View
  ended : Finset Str
  link : Option Link
  /-- How many links there have been. -/
  links : ℕ
  nextId : ℕ
  /-- Attaches that are not sent, with the link they are for. -/
  tasks : List (ℕ × Str)
  /-- Views that are inserted and not yet attached by their caller. -/
  opening : List Str
  /-- Streams whose view is removed and that are still in the table. -/
  closing : List (Str × StreamId)
  /-- Streams that the host is not yet told of. -/
  notifying : List StreamId
  /-- Sessions that the host does not have; their views end. -/
  refused : List Str
  supervisor : Supervisor

inductive LinkAction
  | view (session : Str)
  | viewLink (session : Str)
  | detach (session : Str)
  | detachStream (session : Str) (stream : StreamId)
  | notifyClose (stream : StreamId)
  | sendAttach (link : ℕ) (session : Str)
  | endView (session : Str)
  | linkUp
  | readEnded
  /-- The views that have not ended, in the order in which the map lists them. -/
  | collect (sessions : List Str)
  | attachNext
  | dispatch
  | route
  | linkDown
  | resetStreams
  | hostHandle (reply : Reply)
  | hostStarted (id : ℕ) (session : Str) (reply : Reply)
  | hostExit (stream : StreamId)
  | hostKicked (session : Str)

namespace RemoteHost

def new : RemoteHost where
  views := fun _ => none
  ended := ∅
  link := none
  links := 0
  nextId := 1
  tasks := []
  opening := []
  closing := []
  notifying := []
  refused := []
  supervisor := .connecting

variable (r : RemoteHost)

/-- The stream that the view of the session holds. -/
def streamOf (session : Str) : Option StreamId := (r.views session).bind View.stream

def insertView (session : Str) (view : View) : RemoteHost :=
  { r with views := Function.update r.views session (some view) }

/-- The task is spawned for the link, if it is up. -/
def attach (session : Str) : RemoteHost :=
  match r.link with
  | some l => { r with tasks := r.tasks ++ [(l.number, session)] }
  | none => r

def view (session : Str) : RemoteHost :=
  { r.insertView session ⟨none⟩ with opening := session :: r.opening }

def detach (session : Str) : RemoteHost :=
  { r with
    ended := r.ended.erase session
    views := Function.update r.views session none
    closing := (r.streamOf session).elim r.closing fun stream => (session, stream) :: r.closing }

/-- The second section: the stream leaves the table of the link. -/
def detachStream (session : Str) (stream : StreamId) : RemoteHost :=
  { r with
    closing := r.closing.erase (session, stream)
    notifying := stream :: r.notifying
    link := r.link.map (·.removeStream stream) }

/-- The third: the host is told. -/
def notifyClose (stream : StreamId) : RemoteHost :=
  { r with notifying := r.notifying.erase stream, link := r.link.map (·.sendClose stream) }

/-- An attach is sent on the link it is for; on one that is gone it is lost. -/
def sendAttach (link : ℕ) (session : Str) : RemoteHost :=
  { r with
    tasks := r.tasks.erase (link, session)
    nextId := r.nextId + 1
    link := r.link.map fun l => if l.number = link then l.sendAttach r.nextId session else l }

def endView (session : Str) : RemoteHost :=
  { r with
    refused := r.refused.erase session
    ended := if (r.views session).isSome then insert session r.ended else r.ended }

def attachNext : RemoteHost :=
  match r.supervisor with
  | .attaching (session :: rest) => { r.attach session with supervisor := .attaching rest }
  | _ => r

/-- One message of the host; it is no longer in the link. -/
def routeMessage (l : Link) : ToClient → RemoteHost
  | .attached id stream =>
    match l.calls id with
    | none => { r with link := some l }
    | some session =>
      let l := { l with calls := Function.update l.calls id none }
      if (r.views session).isSome then
        { r.insertView session ⟨some stream⟩ with
          link := some { l with streams := Function.update l.streams stream (some session) } }
      else { r with link := some l }
  | .failed id notFound =>
    match l.calls id with
    | none => { r with link := some l }
    | some session =>
      { r with
        link := some { l with calls := Function.update l.calls id none }
        refused := if notFound then session :: r.refused else r.refused }
  | .sessionEnded session =>
    match r.streamOf session with
    | some stream =>
      { r.insertView session ⟨none⟩ with link := some (l.removeStream stream), ended := insert session r.ended }
    | none => { r with link := some l, ended := insert session r.ended }
  | .exit stream =>
    match l.streams stream with
    | some session =>
      { r with views := Function.update r.views session none, link := some (l.removeStream stream) }
    | none => { r with link := some l }

def route : RemoteHost :=
  match r.link with
  | none => r
  | some l =>
    match l.toClient with
    | [] => r
    | message :: rest => r.routeMessage { l with toClient := rest } message

def linkUp : RemoteHost :=
  { r with link := some (.new r.links), links := r.links + 1, supervisor := .connected }

def linkDown : RemoteHost := { r with link := none, supervisor := .closing }

def resetStreams : RemoteHost :=
  { r with views := fun session => (r.views session).map fun _ => ⟨none⟩, supervisor := .connecting }

def perform : LinkAction → RemoteHost
  | .view session => r.view session
  | .viewLink session => { r.attach session with opening := r.opening.erase session }
  | .detach session => r.detach session
  | .detachStream session stream => r.detachStream session stream
  | .notifyClose stream => r.notifyClose stream
  | .sendAttach link session => r.sendAttach link session
  | .endView session => r.endView session
  | .linkUp => r.linkUp
  | .readEnded => { r with supervisor := .collecting r.ended }
  | .collect sessions => { r with supervisor := .attaching sessions }
  | .attachNext => r.attachNext
  | .dispatch => { r with supervisor := .dispatching }
  | .route => r.route
  | .linkDown => r.linkDown
  | .resetStreams => r.resetStreams
  | .hostHandle reply => { r with link := r.link.map (·.handle reply) }
  | .hostStarted id session reply => { r with link := r.link.map (·.started id session reply) }
  | .hostExit stream => { r with link := r.link.map (·.exit stream) }
  | .hostKicked session => { r with link := r.link.map (·.kicked session) }

/-- Whether the task is at the section. -/
def Enabled : LinkAction → Prop
  | .view _ | .detach _ => True
  | .viewLink session => session ∈ r.opening
  | .detachStream session stream => (session, stream) ∈ r.closing
  | .notifyClose stream => stream ∈ r.notifying
  | .sendAttach link session => (link, session) ∈ r.tasks
  | .endView session => session ∈ r.refused
  | .linkUp => r.supervisor = .connecting
  | .readEnded => r.supervisor = .connected
  | .collect sessions => ∃ ended, r.supervisor = .collecting ended ∧ sessions.Nodup ∧
    ∀ session, session ∈ sessions ↔ (r.views session).isSome = true ∧ session ∉ ended
  | .attachNext => ∃ session rest, r.supervisor = .attaching (session :: rest)
  | .dispatch => r.supervisor = .attaching []
  | .route => r.supervisor = .dispatching ∧ ∃ l, r.link = some l ∧ l.toClient ≠ []
  | .linkDown => r.supervisor = .dispatching
  | .resetStreams => r.supervisor = .closing
  | .hostHandle _ => ∃ l, r.link = some l ∧ l.toHost ≠ []
  | .hostStarted id session reply => reply ≠ .starts ∧ ∃ l, r.link = some l ∧ (id, session) ∈ l.starting
  | .hostExit stream => ∃ l hosted, r.link = some l ∧ l.hostStreams stream = some hosted ∧ hosted.exited = false
  | .hostKicked _ => r.link.isSome = true

end RemoteHost

def clients : System RemoteHost LinkAction where
  init r := r = .new
  step r action r' := r.Enabled action ∧ r' = r.perform action

end NiumaTerm.Remote
