import NiumaTerm.Lib.Str

/-!
# What an agent conversation starts from

A saved profile, the workspace roots, the thread settings and the role text.  Orchestration slots
and team members both hold these; no function here looks inside them.
-/

namespace NiumaTerm

open Rust

inductive AgentKind
  | codex
  | claude
  | deepSeek
  deriving DecidableEq

/-- A lookup into the profile store, without resolved launch credentials. -/
structure ProfileReference where
  kind : AgentKind
  name : Str
  deriving DecidableEq

/-- The thread settings a user picks; the default leaves each of them to the profile. -/
structure ThreadSettings where
  model : Option Str := none
  approval : Option Str := none
  approvalsReviewer : Option Str := none
  sandbox : Option Str := none
  effort : Option Str := none
  tier : Option Str := none
  agentPreset : Option Str := none
  deriving DecidableEq

/-- The directories a conversation opens with. -/
structure AgentWorkspace where
  primary : Option Str := none
  additional : List Str := []
  deriving DecidableEq

structure AgentSpec where
  profile : ProfileReference
  roots : AgentWorkspace
  settings : ThreadSettings
  role : Str
  deriving DecidableEq

end NiumaTerm
