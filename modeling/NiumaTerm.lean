import NiumaTerm.BackgroundTask.Restoring
import NiumaTerm.ClaudeCode.Dialogs.Forms
import NiumaTerm.ClaudeCode.Effort
import NiumaTerm.ClaudeCode.Sessions.Accounting
import NiumaTerm.ClaudeCode.Sessions.ProgressReader
import NiumaTerm.ClaudeCode.Settlement
import NiumaTerm.ClaudeCode.Tasks.Identity
import NiumaTerm.Codex.ChildLinks
import NiumaTerm.Dsh.History
import NiumaTerm.Dsh.ProjectionOrder
import NiumaTerm.InputHistory.Histories
import NiumaTerm.Orchestration.Ancestry
import NiumaTerm.Orchestration.Canonical
import NiumaTerm.Orchestration.CycleFinder
import NiumaTerm.Orchestration.Noninterference
import NiumaTerm.Orchestration.Placement
import NiumaTerm.Orchestration.Recovery
import NiumaTerm.Orchestration.Schedule
import NiumaTerm.Orchestration.Store
import NiumaTerm.Orchestration.Undo
import NiumaTerm.Relay.Quota
import NiumaTerm.Relay.Room
import NiumaTerm.Remote.Channels
import NiumaTerm.Remote.ClientViews
import NiumaTerm.Remote.ControlChunks
import NiumaTerm.Remote.Direct
import NiumaTerm.Remote.Frame
import NiumaTerm.Remote.HelloTimes
import NiumaTerm.Remote.Pairing
import NiumaTerm.Remote.PairingLink
import NiumaTerm.Remote.Push
import NiumaTerm.Remote.Rpc
import NiumaTerm.Remote.SendQueue
import NiumaTerm.Remote.StreamDrain
import NiumaTerm.Remote.Viewers
import NiumaTerm.Session.Children
import NiumaTerm.Session.Echoes
import NiumaTerm.Session.Listing
import NiumaTerm.Team.Completion
import NiumaTerm.Team.Deciding
import NiumaTerm.Team.DirectRequest
import NiumaTerm.Team.Freshness
import NiumaTerm.Team.Representation
import NiumaTerm.Team.Stranding
import NiumaTerm.Team.TurnBudget
import NiumaTerm.Terminal.BlockSelection
import NiumaTerm.Terminal.Capture
import NiumaTerm.Terminal.EchoColumns
import NiumaTerm.Terminal.FrameStore
import NiumaTerm.Terminal.Links
import NiumaTerm.Terminal.ListMirror
import NiumaTerm.Terminal.ReplayMarks
import NiumaTerm.Terminal.ScreenPages
import NiumaTerm.Terminal.WriteQueue
import NiumaTerm.Transcript.Changes
import NiumaTerm.Transcript.Disclosed
import NiumaTerm.Updater.InPlace
