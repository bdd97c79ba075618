import MockDB.Proof.Complete
import MockDB.Proof.Refine
import MockDB.Proof.Etag
import MockDB.Proof.Linear
import MockDB.Proof.TreiberCausal
import MockDB.HttpServer.HttpServer
import MockDB.Proof.CausalHistory
import MockDB.Proof.Versions
import MockDB.Proof.Commute
import MockDB.Proof.Fair
import MockDB.Applications.Courseware
import MockDB.Proof.AppRun
import MockDB.Spec.CoursewareState
import MockDB.Proof.CoursewareRun
import MockDB.Proof.KeyNames
import MockDB.Proof.CoursewareCalls
import MockDB.Proof.CoursewareMirror
import MockDB.Proof.CoursewareRegistered
import MockDB.Proof.CoursewareCapacity
import MockDB.Applications.Twitter
import MockDB.Spec.TwitterState
import MockDB.Proof.TwitterRun
import MockDB.Proof.TwitterFollow
import MockDB.Proof.TwitterTimeline
import MockDB.Spec.Cart
import MockDB.Proof.CartRun
import MockDB.Proof.CartRefine
import MockDB.Proof.TwitterAtomic
import MockDB.Proof.CoursewareEnroll
import MockDB.Proof.TwitterNewsfeed
import MockDB.Proof.TreiberFresh
import MockDB.Proof.RejectedPost
import MockDB.Proof.KeyPaths
import MockDB.Proof.RegisterStore
import MockDB.Proof.TreiberProgress
import MockDB.Proof.TreiberIntegrity
import MockDB.Proof.Threads
import MockDB.Proof.TwitterThreads
import MockDB.Proof.CartThreads
import MockDB.Proof.CoursewareThreads
import MockDB.Proof.EtagSessions
import MockDB.Proof.OneSession
import MockDB.Proof.CartServed
import MockDB.Proof.CartDriver
import MockDB.Proof.CoursewareDriver
import MockDB.Proof.TwitterDriver
import MockDB.Proof.StackDriver
