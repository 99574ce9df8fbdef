import Hibari.CursorSoundness
import Hibari.Realtime
import Hibari.BrokerTruth
import Hibari.PresenceTruth
import Hibari.HuddleSnapshots
import Hibari.ArchivedRooms
import Hibari.PasswordReset
import Hibari.Refreshes
import Hibari.OneTimeTokens
import Hibari.FrozenRooms
import Hibari.RoomHistory
import Hibari.AttachmentSets
import Hibari.ShownPreviews
import Hibari.ThreadOrder
import Hibari.FreshRefetches
import Hibari.RoomResponses
import Hibari.LostRoomRuns
import Hibari.ThreadComplete
import Hibari.LiveActivity
import Hibari.SessionEnds
import Hibari.DesktopNotifier
import Hibari.DirectMessages
import Hibari.SafeHttp
import Hibari.WebSession
import Hibari.RoomDeletion
import Hibari.LostAccess
import Hibari.SavedOnce
import Hibari.Revalidation
import Hibari.MessageWindows
import Hibari.Acceptances
import Hibari.ReactionToggle
import Hibari.MarkRuns
import Hibari.SearchQuery
import Hibari.Stage
import Hibari.ClientIp
import Hibari.Highlight
import Hibari.ReadRequests
import Hibari.MuteTimer
import Hibari.RecentHuddles
import Hibari.TimelineRows
import Hibari.SettingsBroadcast
import Hibari.LiveRoom
import Hibari.MailQueue
