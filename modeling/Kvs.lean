import Kvs.Store.Refinement
import Kvs.Store.Notification
import Kvs.Store.Overrun
import Kvs.Job.Commands
import Kvs.Job.Isolation
import Kvs.Session.Framing
import Kvs.Session.Endings
import Kvs.Client.Agreement
import Kvs.Safety.BucketIndex
import Kvs.Concurrency.Atomicity
import Kvs.Concurrency.Registration
import Kvs.Client.Handshake
import Kvs.Client.Notifications
import Kvs.Store.Backup
import Kvs.Job.Independence
import Kvs.Concurrency.JobDirectory
import Kvs.Concurrency.BackupLimit
import Kvs.Concurrency.OwnPipes
import Kvs.Concurrency.Subscribers
import Kvs.Concurrency.Entries
import Kvs.Store.Disconnect
import Kvs.Store.Traversal
import Kvs.Store.Room
import Kvs.Store.Replies
import Kvs.Client.ParseList
import Kvs.Job.FinalNewline
import Kvs.Job.BackupNames
import Kvs.Server.WriteStr
import Kvs.Job.Wait
import Kvs.Common.Frames
import Kvs.Safety.StringBuffers
import Kvs.Job.Account
import Kvs.Client.Mirror
import Kvs.Client.Main
import Kvs.Concurrency.Progress
import Kvs.Concurrency.Connect
import Kvs.Concurrency.Linearize
import Kvs.Concurrency.JobPool
import Kvs.Client.Spelled
import Kvs.Concurrency.Serialize
import Kvs.Concurrency.Latest
import Kvs.Concurrency.JobBackups
