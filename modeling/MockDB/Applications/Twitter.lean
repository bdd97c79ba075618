import MockDB.Applications.App

/-!
# Twitter

`twitter.h`. A user has three lists, of whom it follows, of who follows it and of its
tweets, and each tweet has a record. Ids and times are `long`s, and are stored as such, but
`as_integer` reads them back. The four getters that only return `0` or an empty list so far
are left out.
-/

namespace MockDB

/-- `user`. -/
structure User where
  id : Int
  username : String
  deriving DecidableEq

/-- `tweet`. -/
structure Tweet where
  id : Int
  content : String
  timestamp : Int
  likes : Int
  retweets : Int
  deriving DecidableEq

inductive TwitterKey where
  | users
  | username (id : Int)
  | following (id : Int)
  | followers (id : Int)
  | tweets (id : Int)
  | tweet (id : Int)
  deriving DecidableEq

/-- The strings the keys are. -/
def TwitterKey.name : TwitterKey → String
  | users => "users"
  | username id => "user:" ++ toString id ++ ":name"
  | following id => "user:" ++ toString id ++ ":following"
  | followers id => "user:" ++ toString id ++ ":followers"
  | tweets id => "user:" ++ toString id ++ ":tweets"
  | tweet id => "tweet:" ++ toString id

/-- What `std::sort` by timestamp may do. It need not keep tweets of the same time in order. -/
structure TweetSort where
  sort : List Tweet → List Tweet
  perm : ∀ tweets, (sort tweets).Perm tweets
  sorted : ∀ tweets, (sort tweets).Pairwise fun a b => a.timestamp ≤ b.timestamp

/-- One that keeps them in order. -/
def TweetSort.stable : TweetSort where
  sort tweets := tweets.mergeSort fun a b => a.timestamp ≤ b.timestamp
  perm tweets := List.mergeSort_perm tweets _
  sorted tweets := by
    have h : (tweets.mergeSort fun a b => decide (a.timestamp ≤ b.timestamp)).Pairwise
        fun a b => decide (a.timestamp ≤ b.timestamp) = true := by
      refine List.pairwise_mergeSort (fun a b c hab hbc => ?_) (fun a b => ?_) tweets
      · simp only [decide_eq_true_eq] at *; omega
      · simp only [Bool.or_eq_true, decide_eq_true_eq]; omega
    exact h.imp fun hab => of_decide_eq_true hab

@[simp] theorem TweetSort.sort_nil (sort : TweetSort) : sort.sort [] = [] := (sort.perm []).eq_nil

@[simp] theorem TweetSort.length_sort (sort : TweetSort) (tweets : List Tweet) :
    (sort.sort tweets).length = tweets.length :=
  (sort.perm tweets).length_eq

namespace Twitter

open App Json

/-- `add_user`. -/
def addUser (u : User) : App TwitterKey Unit := do
  -- Add user to list
  let userList ← getList "list" .users defaultSession
  let userCount ← json userList.count
  let userList ← json (userList.appendAt "list" userCount (long u.id))
  put .users userList defaultSession
  -- Add user details
  let userJson ← json (Json.null.setList "list" [] 0)
  put (.username u.id) (string u.username) defaultSession
  put (.following u.id) userJson u.id
  put (.followers u.id) userJson u.id
  put (.tweets u.id) userJson u.id

/-- The loop of `follow` that looks for `b`. -/
def isFollowing (b : Int) : List Json → Option Bool
  | [] => some false
  | i :: rest => i.asInteger.bind fun id => if id = b then some true else isFollowing b rest

/-- `follow`: user `a` follows user `b`. -/
def follow (a b : User) : App TwitterKey Unit := do
  -- update a's following list
  match ← (get (.following a.id) a.id).attempt with
  | .error _ => pure ()
  | .ok following =>
      -- Check if already following
      let list ← json (following.elements "list")
      if ← json (isFollowing b.id list) then pure ()
      else
        let followingCount ← json following.count
        let following ← json (following.appendAt "list" followingCount (long b.id))
        put (.following a.id) following a.id
        -- update b's followers list
        match ← (get (.followers b.id) a.id).attempt with
        | .error _ => pure ()
        | .ok followers =>
            let followerCount ← json followers.count
            let followers ← json (followers.appendAt "list" followerCount (long a.id))
            put (.followers a.id) followers a.id

/-- The record of a tweet. -/
def tweetDetails (t : Tweet) : Json :=
  object [("content", string t.content), ("timestamp", long t.timestamp),
    ("likes", long t.likes), ("retweets", long t.retweets)]

/-- `publish_tweet`. -/
def publishTweet (u : User) (t : Tweet) : App TwitterKey Unit := do
  -- add tweet to user u
  match ← (get (.tweets u.id) u.id).attempt with
  | .error _ => pure ()
  | .ok tweets =>
      let tweetsCount ← json tweets.count
      let tweets ← json (tweets.appendAt "list" tweetsCount (long t.id))
      put (.tweets u.id) tweets u.id
      -- add tweet details
      put (.tweet t.id) (tweetDetails t) u.id

/-- `tweet_obj`, read off the record under its id. -/
def tweetObj (id : Int) (details : Json) : Option Tweet := do
  let content ← (details.field "content").bind asString
  let timestamp ← (details.field "timestamp").bind asInteger
  let likes ← (details.field "likes").bind asInteger
  let retweets ← (details.field "retweets").bind asInteger
  return { id, content, timestamp, likes, retweets }

/-- The loop of `_get_timeline`, over what is left of the list. -/
def allTweets (sessionId : Int) : List Json → App TwitterKey (List Tweet)
  | [] => pure []
  | t :: rest => do
      let tweetJson ← (do
        let id ← json t.asInteger
        get (.tweet id) sessionId : App TwitterKey Json).attempt
      match tweetJson with
      | .error _ => allTweets sessionId rest
      | .ok tweetJson =>
          let id ← json t.asInteger
          let tweet ← json (tweetObj id tweetJson)
          let tweets ← allTweets sessionId rest
          pure (tweet :: tweets)

variable (sort : TweetSort)

/-- `_get_timeline`. -/
def timeline (userId sessionId : Int) : App TwitterKey (List Tweet) := do
  match ← (get (.tweets userId) sessionId).attempt with
  | .error _ => pure []
  | .ok tweets =>
      let list ← json (tweets.elements "list")
      let allTweets ← allTweets sessionId list
      pure (sort.sort allTweets)

/-- `get_timeline`. -/
def getTimeline (u : User) (sessionId : Int) : App TwitterKey (List Tweet) :=
  timeline sort u.id sessionId

/-- The timelines of the users on a list, one after another. -/
def timelines (sessionId : Int) : List Json → App TwitterKey (List Tweet)
  | [] => pure []
  | i :: rest => do
      let id ← json i.asInteger
      let tweets ← timeline sort id sessionId
      let more ← timelines sessionId rest
      pure (tweets ++ more)

/-- `get_all_timeline`, which reads the list of users by the default session. -/
def getAllTimeline (sessionId : Int) : App TwitterKey (List Tweet) := do
  match ← (get .users defaultSession).attempt with
  | .error _ => pure []
  | .ok userList =>
      let list ← json (userList.elements "list")
      timelines sort sessionId list

/-- `get_newsfeed`, without the log of what it found. -/
def getNewsfeed (u : User) : App TwitterKey (List Tweet) := do
  match ← (get (.following u.id) u.id).attempt with
  | .error _ => pure []
  | .ok following =>
      let list ← json (following.elements "list")
      let timeline ← timelines sort u.id list
      pure (sort.sort timeline)

end Twitter

/-- The calls there are. -/
inductive TwitterOp where
  | addUser (u : User)
  | follow (a b : User)
  | publishTweet (u : User) (t : Tweet)
  | getNewsfeed (u : User)
  | getTimeline (u : User) (sessionId : Int)
  | getAllTimeline (sessionId : Int)
  deriving DecidableEq

/-- What a call runs. What a getter returns is left to whoever called it. -/
def TwitterOp.program (sort : TweetSort) : TwitterOp → App TwitterKey Unit
  | addUser u => Twitter.addUser u
  | follow a b => Twitter.follow a b
  | publishTweet u t => Twitter.publishTweet u t
  | getNewsfeed u => do
      let _ ← Twitter.getNewsfeed sort u
      pure ()
  | getTimeline u sessionId => do
      let _ ← Twitter.getTimeline sort u sessionId
      pure ()
  | getAllTimeline sessionId => do
      let _ ← Twitter.getAllTimeline sort sessionId
      pure ()

/-- What a call runs, with the tweets it returns. -/
def TwitterOp.tweets (sort : TweetSort) : TwitterOp → App TwitterKey (List Tweet)
  | addUser u => do
      Twitter.addUser u
      pure []
  | follow a b => do
      Twitter.follow a b
      pure []
  | publishTweet u t => do
      Twitter.publishTweet u t
      pure []
  | getNewsfeed u => Twitter.getNewsfeed sort u
  | getTimeline u sessionId => Twitter.getTimeline sort u sessionId
  | getAllTimeline sessionId => Twitter.getAllTimeline sort sessionId

/-- The user a call adds. -/
def TwitterOp.userAdded : TwitterOp → Option Int
  | addUser u => some u.id
  | _ => none

/-- The users that a call takes for added. -/
def TwitterOp.usersUsed : TwitterOp → List Int
  | follow a b => [a.id, b.id]
  | publishTweet u _ => [u.id]
  | _ => []

/-- The tweet a call publishes. -/
def TwitterOp.tweetPublished : TwitterOp → Option (Int × Tweet)
  | publishTweet u t => some (u.id, t)
  | _ => none

/-- The `long`s that a call stores. -/
def TwitterOp.longs : TwitterOp → List Int
  | addUser u => [u.id]
  | follow a b => [b.id, a.id]
  | publishTweet _ t => [t.id, t.timestamp, t.likes, t.retweets]
  | _ => []

/-- Who follows whom by a call. -/
def TwitterOp.followed : TwitterOp → Option (Int × Int)
  | follow a b => some (a.id, b.id)
  | _ => none

/-- A call, with its random numbers. -/
structure TwitterCall where
  op : TwitterOp
  draws : Nat → Draws

/-- A store after whole calls, one at a time. -/
def Twitter.after (sort : TweetSort) (sel : ReadResponseSelector) (calls : List TwitterCall) :
    World String Json :=
  App.runAll TwitterKey.name (World.init sel)
    (calls.map fun call => (call.op.program sort, call.draws))

end MockDB
