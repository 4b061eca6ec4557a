import Pokyh.Account.Activity
import Pokyh.Account.Classes
import Pokyh.Account.Excuses
import Pokyh.Account.LocalDays
import Pokyh.Account.Majority
import Pokyh.Account.QrLogin
import Pokyh.Account.Recaps
import Pokyh.Account.SessionProofs
import Pokyh.Account.Sessions
import Pokyh.Account.SignIns
import Pokyh.Account.Streams
import Pokyh.Account.Tokens
import Pokyh.Account.Usage
import Pokyh.Admin.Base32
import Pokyh.Admin.Grants
import Pokyh.Admin.Permissions
import Pokyh.Admin.SecondFactor
import Pokyh.Admin.Setup
import Pokyh.Cache.Freshness
import Pokyh.Cache.Recency
import Pokyh.Cache.SessionMemo
import Pokyh.Cache.Store
import Pokyh.Cluster.Agreement
import Pokyh.Cluster.Applier
import Pokyh.Cluster.Attempts
import Pokyh.Cluster.Bundles
import Pokyh.Cluster.Capture
import Pokyh.Cluster.Catalog
import Pokyh.Cluster.Channel
import Pokyh.Cluster.Codec
import Pokyh.Cluster.Convergence
import Pokyh.Cluster.Database
import Pokyh.Cluster.Delivery
import Pokyh.Cluster.Duplicates
import Pokyh.Cluster.Exclusive
import Pokyh.Cluster.FastPath
import Pokyh.Cluster.Feed
import Pokyh.Cluster.Frames
import Pokyh.Cluster.Framing
import Pokyh.Cluster.GitRefs
import Pokyh.Cluster.Health
import Pokyh.Cluster.Invites
import Pokyh.Cluster.IpAddresses
import Pokyh.Cluster.Joining
import Pokyh.Cluster.Nonces
import Pokyh.Cluster.Orphans
import Pokyh.Cluster.Pairing
import Pokyh.Cluster.Parking
import Pokyh.Cluster.Passes
import Pokyh.Cluster.ProxyLines
import Pokyh.Cluster.Recovery
import Pokyh.Cluster.References
import Pokyh.Cluster.Relay
import Pokyh.Cluster.Replay
import Pokyh.Cluster.Replicator
import Pokyh.Cluster.Responsibility
import Pokyh.Cluster.Retries
import Pokyh.Cluster.Rollout
import Pokyh.Cluster.ServerNames
import Pokyh.Cluster.Transcripts
import Pokyh.Cluster.Transfer
import Pokyh.Cluster.Updates
import Pokyh.Cluster.Verify
import Pokyh.Cluster.Wire
import Pokyh.Lib.Answers
import Pokyh.Lib.Base64
import Pokyh.Lib.Bits
import Pokyh.Lib.Blocks
import Pokyh.Lib.Buckets
import Pokyh.Lib.Caches
import Pokyh.Lib.Calendar
import Pokyh.Lib.Calls
import Pokyh.Lib.Counting
import Pokyh.Lib.Documents
import Pokyh.Lib.Doubles
import Pokyh.Lib.Entries
import Pokyh.Lib.Groups
import Pokyh.Lib.Horizons
import Pokyh.Lib.Interruptions
import Pokyh.Lib.IsoDates
import Pokyh.Lib.Json
import Pokyh.Lib.JsonTexts
import Pokyh.Lib.LastWriter
import Pokyh.Lib.Logs
import Pokyh.Lib.NonceWindows
import Pokyh.Lib.Ordered
import Pokyh.Lib.Patterns
import Pokyh.Lib.Primitives
import Pokyh.Lib.Ranks
import Pokyh.Lib.Relocations
import Pokyh.Lib.Results
import Pokyh.Lib.Rows
import Pokyh.Lib.Runs
import Pokyh.Lib.Selections
import Pokyh.Lib.Streams
import Pokyh.Lib.Stretches
import Pokyh.Lib.Tables
import Pokyh.Lib.Texts
import Pokyh.Lib.Utf8
import Pokyh.Lib.Versions
import Pokyh.Lib.Votes
import Pokyh.Menu.Addresses
import Pokyh.Menu.Breaks
import Pokyh.Menu.DishNames
import Pokyh.Menu.Edits
import Pokyh.Menu.Idempotence
import Pokyh.Menu.Layout
import Pokyh.Menu.Pdf
import Pokyh.Menu.PublicMenu
import Pokyh.Menu.Pull
import Pokyh.Menu.Ratings
import Pokyh.Menu.Reading
import Pokyh.Menu.Rotation
import Pokyh.Menu.Schedule
import Pokyh.Menu.SchoolCalendar
import Pokyh.Menu.Seasons
import Pokyh.Menu.Slugs
import Pokyh.Menu.Source
import Pokyh.Menu.StableKeys
import Pokyh.Node.ComposePolicy
import Pokyh.Node.Edge
import Pokyh.Node.EnvFiles
import Pokyh.Node.Handover
import Pokyh.Node.Settings
import Pokyh.Node.Updater
import Pokyh.School.Audience
import Pokyh.School.DueItems
import Pokyh.School.Holidays
import Pokyh.School.Interleaving
import Pokyh.School.Lanes
import Pokyh.School.Notices
import Pokyh.School.Pushes
import Pokyh.School.Records
import Pokyh.School.Restore
import Pokyh.School.Rollover
import Pokyh.School.Years
