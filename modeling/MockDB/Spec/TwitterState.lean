import MockDB.Applications.Twitter
import Mathlib.Logic.Function.Basic

/-!
# The state of twitter

What the store holds for twitter, without keys and JSON. A call changes the state as a
whole. `Proof/TwitterRun.lean` shows that on a linearizable store the code does the same. A
`long` is stored as it is, and comes back as the `int` that `as_integer` makes of it.
-/

namespace MockDB

/-- What twitter stores. -/
structure TwitterState where
  users : Option (List Int)
  username : Int → Option String
  following : Int → Option (List Int)
  followers : Int → Option (List Int)
  tweets : Int → Option (List Int)
  tweet : Int → Option Tweet

/-- A tweet as it is read off its record. -/
def Tweet.readBack (t : Tweet) : Tweet where
  id := Json.int32 t.id
  content := t.content
  timestamp := Json.int32 t.timestamp
  likes := Json.int32 t.likes
  retweets := Json.int32 t.retweets

namespace TwitterState

/-- Nothing stored. -/
def empty : TwitterState where
  users := none
  username _ := none
  following _ := none
  followers _ := none
  tweets _ := none
  tweet _ := none

def addUser (st : TwitterState) (u : User) : TwitterState :=
  { st with
    users := some (st.users.getD [] ++ [u.id])
    username := Function.update st.username u.id (some u.username)
    following := Function.update st.following u.id (some [])
    followers := Function.update st.followers u.id (some [])
    tweets := Function.update st.tweets u.id (some []) }

/-- `follow` once `a` follows `b`: the new list of `b`'s followers is stored as `a`'s. -/
def setFollowers (st : TwitterState) (a b : Int) : TwitterState :=
  match st.followers b with
  | none => st
  | some followers =>
      { st with followers := Function.update st.followers a (some (followers ++ [a])) }

def follow (st : TwitterState) (a b : Int) : TwitterState :=
  match st.following a with
  | none => st
  | some following =>
      if b ∈ following.map Json.int32 then st
      else
        { st with
          following := Function.update st.following a (some (following ++ [b])) }.setFollowers a b

def publishTweet (st : TwitterState) (u : Int) (t : Tweet) : TwitterState :=
  match st.tweets u with
  | none => st
  | some tweets =>
      { st with
        tweets := Function.update st.tweets u (some (tweets ++ [t.id]))
        tweet := Function.update st.tweet t.id (some t) }

/-- One call. -/
def step (st : TwitterState) : TwitterOp → TwitterState
  | .addUser u => st.addUser u
  | .follow a b => st.follow a.id b.id
  | .publishTweet u t => st.publishTweet u.id t
  | .getNewsfeed _ => st
  | .getTimeline _ _ => st
  | .getAllTimeline _ => st

/-- Calls one after another. -/
def run (ops : List TwitterOp) : TwitterState := ops.foldl step empty

/-- The tweet found by an id on a list. -/
def tweetAt (st : TwitterState) (id : Int) : Option Tweet :=
  (st.tweet (Json.int32 id)).map Tweet.readBack

/-- The tweets found by a user's list. -/
def tweetsOf (st : TwitterState) (u : Int) : List Tweet :=
  ((st.tweets u).getD []).filterMap st.tweetAt

/-- The timelines of the users on a list, one after another. -/
def timelines (st : TwitterState) (sort : TweetSort) (us : List Int) : List Tweet :=
  us.flatMap fun u => sort.sort (st.tweetsOf (Json.int32 u))

/-- What a call of a thread returns and leaves. -/
def serve (sort : TweetSort) : TwitterOp → TwitterState → List Tweet × TwitterState
  | .getNewsfeed u, st => (sort.sort (st.timelines sort ((st.following u.id).getD [])), st)
  | .getTimeline u _, st => (sort.sort (st.tweetsOf u.id), st)
  | .getAllTimeline _, st => (st.timelines sort (st.users.getD []), st)
  | op, st => ([], st.step op)

theorem run_concat (ops : List TwitterOp) (op : TwitterOp) :
    run (ops ++ [op]) = (run ops).step op := by
  simp [run]

end TwitterState

end MockDB
