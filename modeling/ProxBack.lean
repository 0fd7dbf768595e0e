import ProxBack.Lib.Prog
import ProxBack.Lib.FinMap
import ProxBack.Engine.Basic
import ProxBack.Engine.Target
import ProxBack.Engine.ChunkStore
import ProxBack.Engine.Gc
import ProxBack.Engine.GcSafe
import ProxBack.Engine.IndexSound
import ProxBack.Engine.Coalesce
import ProxBack.Engine.GcExact
import ProxBack.Engine.CoalesceSafe
import ProxBack.Engine.CoalesceRuns
import ProxBack.Engine.Pipeline
import ProxBack.Lib.Pool
import ProxBack.Engine.PipelineSafe
import ProxBack.Engine.StreamComplete
import ProxBack.Engine.RoundTrip
import ProxBack.Engine.PipelineCount
import ProxBack.Engine.WorkerCount
import ProxBack.Lib.Choice
import ProxBack.Store.Retention
import ProxBack.Store.RetentionRule
import ProxBack.Store.Backups
import ProxBack.Sched.Retention
import ProxBack.Sched.RetentionPath
import ProxBack.Api.Preview
import ProxBack.Sched.Backup
import ProxBack.Sched.Ghost
import ProxBack.Sched.GhostRuns
import ProxBack.Sched.Site
import ProxBack.Sched.SiteSafe
import ProxBack.Sched.SiteRuns
import ProxBack.Agent.Complete
import ProxBack.Agent.Manager
import ProxBack.Sched.Gate
import ProxBack.Agent.Effects
import ProxBack.Agent.Core
import ProxBack.Agent.ExchangeSafe
import ProxBack.Agent.Dispatches
import ProxBack.Agent.Attempts
import ProxBack.Sched.Lifecycle
import ProxBack.Sched.LifecycleSafe
import ProxBack.Sched.LifecycleRuns
import ProxBack.Sched.RunRows
import ProxBack.Sched.RunRowsSafe
import ProxBack.Engine.StreamEnd
import ProxBack.Sched.Guest
import ProxBack.Sched.GuestEnds
import ProxBack.Sched.Transfer
import ProxBack.Agent.Tar
import ProxBack.Agent.Unpack
import ProxBack.Sched.Restore
import ProxBack.Sched.RestoreComplete
import ProxBack.Lib.Text
import ProxBack.Sched.Plan
import ProxBack.Api.Coverage
import ProxBack.Sched.Once
import ProxBack.Sched.OnceExact
import ProxBack.Sched.Trigger
import ProxBack.Sched.TriggerSafe
import ProxBack.Sched.Estate
import ProxBack.Sched.EstateSafe
import ProxBack.Sched.History
import ProxBack.Sched.HistorySafe
import ProxBack.Sched.Isolation
import ProxBack.Lib.Calendar
import ProxBack.Store.Cron
import ProxBack.Store.Timetable
import ProxBack.Store.Legacy
import ProxBack.Store.Upgrade
import ProxBack.Lib.JsDate
import ProxBack.Sched.NextRun
import ProxBack.Web.NextRun
import ProxBack.Web.Preview
import ProxBack.Lib.Decimal
import ProxBack.Store.Stamp
import ProxBack.Store.Timestamps
import ProxBack.Store.TimeOrder
import ProxBack.Lib.Glob
import ProxBack.Store.Exclude
import ProxBack.Agent.Names
import ProxBack.Agent.Walk
import ProxBack.Agent.Spanning
import ProxBack.Agent.Exclusion
import ProxBack.Agent.CleanPath
import ProxBack.Agent.Disk
import ProxBack.Agent.Unarchive
import ProxBack.Agent.Archive
import ProxBack.Agent.Collision
import ProxBack.Agent.TarRoundTrip
import ProxBack.Blobstore.Filesystem
import ProxBack.Browse.Stream
import ProxBack.Browse.Index
import ProxBack.Browse.Agree
import ProxBack.Agent.RunBackup
import ProxBack.Sched.Scripts
import ProxBack.Sched.ScriptsGuard
import ProxBack.Sched.ScriptsHeeded
import ProxBack.Lib.Requests
import ProxBack.Sched.Reload
import ProxBack.Sched.ReloadSafe
import ProxBack.Sched.UploadLimit
import ProxBack.Auth.Accounts
import ProxBack.Auth.LastAdmin
import ProxBack.Auth.OldPassword
import ProxBack.Auth.DefaultLogin
import ProxBack.Update.Restart
import ProxBack.Api.ConfigUpdates
import ProxBack.Sched.NodeHelper
import ProxBack.Lib.Era
import ProxBack.Store.Periods
import ProxBack.Store.RetentionSpec
import ProxBack.Store.ScheduleValue
import ProxBack.Sched.Firing
import ProxBack.Store.Survival
import ProxBack.Sched.RunControl
import ProxBack.Store.GlobRelation
import ProxBack.Engine.FirstFailure
import ProxBack.Sched.Uncanceled
import ProxBack.Engine.Authentic
import ProxBack.Browse.Shared
import ProxBack.Agent.Piped
import ProxBack.Agent.LiveTar
import ProxBack.Agent.LiveArchive
import ProxBack.Agent.Contained
import ProxBack.Browse.Listing
import ProxBack.Browse.Lookup
import ProxBack.Lib.Json
import ProxBack.Store.PolicyText
import ProxBack.Sched.StoredPolicy
import ProxBack.Lib.Race
import ProxBack.Sched.ScriptTimeout
import ProxBack.Lib.Files
import ProxBack.Lib.Utf8
import ProxBack.Update.Download
import ProxBack.Update.SelfUpdate
import ProxBack.Update.World
import ProxBack.Update.Held
import ProxBack.Update.Safe
import ProxBack.Update.Staged
import ProxBack.Update.Labels
import ProxBack.Sched.SourceID
import ProxBack.Api.Governing
import ProxBack.Auth.PatchUser
import ProxBack.Deploy.Installer
import ProxBack.Engine.PoolExact
import ProxBack.Lib.SemVer
import ProxBack.Update.Version
import ProxBack.Lib.Records
import ProxBack.Store.RunLog
import ProxBack.Store.Audit
import ProxBack.Store.Enroll
