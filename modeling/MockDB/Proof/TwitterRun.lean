import MockDB.Proof.AppRun
import MockDB.Proof.KeyNames
import MockDB.Spec.TwitterState

/-!
# Twitter on a linearizable store

One lemma for each call: run on the map that a state is stored as, it leaves the map that
the next state is stored as. So a run of the code follows the states. The getters store
nothing, and return what the state has, as `as_integer` gives it back.
-/

namespace MockDB

namespace TwitterState

/-- The values the store has for a state. -/
def toMap (st : TwitterState) : TwitterKey → Option Json
  | .users => st.users.map (Json.longList "list")
  | .username id => (st.username id).map .string
  | .following id => (st.following id).map (Json.longList "list")
  | .followers id => (st.followers id).map (Json.longList "list")
  | .tweets id => (st.tweets id).map (Json.longList "list")
  | .tweet id => (st.tweet id).map Twitter.tweetDetails

section Update

variable (st : TwitterState) (id : Int) (ids : List Int)

@[simp] theorem update_users :
    Function.update st.toMap .users (some (Json.longList "list" ids))
      = { st with users := some ids }.toMap := by
  funext k
  cases k <;> simp [toMap, Function.update]

@[simp] theorem update_username (s : String) :
    Function.update st.toMap (.username id) (some (.string s))
      = { st with username := Function.update st.username id (some s) }.toMap := by
  funext k
  cases k with
  | username id' => by_cases h : id' = id <;> simp [toMap, Function.update, h]
  | _ => simp [toMap, Function.update]

@[simp] theorem update_following :
    Function.update st.toMap (.following id) (some (Json.longList "list" ids))
      = { st with following := Function.update st.following id (some ids) }.toMap := by
  funext k
  cases k with
  | following id' => by_cases h : id' = id <;> simp [toMap, Function.update, h]
  | _ => simp [toMap, Function.update]

@[simp] theorem update_followers :
    Function.update st.toMap (.followers id) (some (Json.longList "list" ids))
      = { st with followers := Function.update st.followers id (some ids) }.toMap := by
  funext k
  cases k with
  | followers id' => by_cases h : id' = id <;> simp [toMap, Function.update, h]
  | _ => simp [toMap, Function.update]

@[simp] theorem update_tweets :
    Function.update st.toMap (.tweets id) (some (Json.longList "list" ids))
      = { st with tweets := Function.update st.tweets id (some ids) }.toMap := by
  funext k
  cases k with
  | tweets id' => by_cases h : id' = id <;> simp [toMap, Function.update, h]
  | _ => simp [toMap, Function.update]

@[simp] theorem update_tweet (t : Tweet) :
    Function.update st.toMap (.tweet id) (some (Twitter.tweetDetails t))
      = { st with tweet := Function.update st.tweet id (some t) }.toMap := by
  funext k
  cases k with
  | tweet id' => by_cases h : id' = id <;> simp [toMap, Function.update, h]
  | _ => simp [toMap, Function.update]

end Update

/-- A record is of the tweet that its key names. -/
def Recorded (st : TwitterState) : Prop := ∀ id t, st.tweet id = some t → t.id = id

section Recorded

variable {st : TwitterState}

/-- To follow somebody touches no tweet. -/
theorem tweets_follow (a b : Int) : (st.follow a b).tweets = st.tweets
    ∧ (st.follow a b).tweet = st.tweet := by
  unfold follow setFollowers
  cases st.following a with
  | none => exact ⟨rfl, rfl⟩
  | some ids =>
      dsimp only
      by_cases hb : b ∈ ids.map Json.int32
      · rw [if_pos hb]; exact ⟨rfl, rfl⟩
      · rw [if_neg hb]
        cases st.followers b <;> simp

theorem Recorded.publishTweet (h : st.Recorded) (u : Int) (t : Tweet) :
    (st.publishTweet u t).Recorded := by
  unfold TwitterState.publishTweet
  cases hlist : st.tweets u with
  | none => exact h
  | some ids =>
      intro id t' ht'
      replace ht' : Function.update st.tweet t.id (some t) id = some t' := ht'
      by_cases hid : id = t.id
      · rw [hid, Function.update_self] at ht'
        rw [hid, Option.some.inj ht']
      · rw [Function.update_of_ne hid] at ht'
        exact h id t' ht'

theorem Recorded.step (h : st.Recorded) (op : TwitterOp) : (st.step op).Recorded := by
  cases op with
  | addUser u => exact h
  | follow a b =>
      intro id t ht
      exact h id t ((congrFun (tweets_follow a.id b.id).2 id).symm.trans ht)
  | publishTweet u t => exact h.publishTweet u.id t
  | getNewsfeed u => exact h
  | getTimeline u s => exact h
  | getAllTimeline s => exact h

theorem recorded_run (ops : List TwitterOp) : (run ops).Recorded := by
  induction ops using List.reverseRecOn with
  | nil => exact fun id t ht => nomatch ht
  | append_singleton ops op ih =>
      rw [run_concat]
      exact ih.step op

end Recorded

end TwitterState

namespace Twitter

open App TwitterState

/-! ## The getters -/

section Getters

variable {S : TwitterKey → Prop} (sort : TweetSort) (sessionId : Int)

theorem writes_allTweets (list : List Json) : (allTweets sessionId list).Writes S := by
  induction list with
  | nil => trivial
  | cons t rest ih =>
      refine Program.Writes.bind (Program.Writes.attempt ?_) fun res => ?_
      · exact Program.Writes.bind (writes_json _) fun id => writes_get _ _
      · cases res with
        | error e => exact ih
        | ok tweetJson =>
            refine Program.Writes.bind (writes_json _) fun id => ?_
            refine Program.Writes.bind (writes_json _) fun tweet => ?_
            exact Program.Writes.bind ih fun tweets => trivial

theorem writes_timeline (userId : Int) : (timeline sort userId sessionId).Writes S := by
  refine Program.Writes.bind (Program.Writes.attempt (writes_get _ _)) fun res => ?_
  cases res with
  | error e => trivial
  | ok tweets =>
      refine Program.Writes.bind (writes_json _) fun list => ?_
      exact Program.Writes.bind (writes_allTweets sessionId list) fun _ => trivial

theorem writes_timelines (list : List Json) : (timelines sort sessionId list).Writes S := by
  induction list with
  | nil => trivial
  | cons i rest ih =>
      refine Program.Writes.bind (writes_json _) fun id => ?_
      refine Program.Writes.bind (writes_timeline sort sessionId id) fun tweets => ?_
      exact Program.Writes.bind ih fun more => trivial

theorem writes_getAllTimeline : (getAllTimeline sort sessionId).Writes S := by
  refine Program.Writes.bind (Program.Writes.attempt (writes_get _ _)) fun res => ?_
  cases res with
  | error e => trivial
  | ok userList =>
      exact Program.Writes.bind (writes_json _) fun list => writes_timelines sort sessionId list

theorem writes_getNewsfeed (u : User) : (getNewsfeed sort u).Writes S := by
  refine Program.Writes.bind (Program.Writes.attempt (writes_get _ _)) fun res => ?_
  cases res with
  | error e => trivial
  | ok following =>
      refine Program.Writes.bind (writes_json _) fun list => ?_
      exact Program.Writes.bind (writes_timelines sort u.id list) fun _ => trivial

end Getters

/-! ## One lemma for each call -/

section OnMap

variable (miss : TwitterKey → StoreException String) (st : TwitterState)

/-- A new list is one of `long`s too. -/
theorem setList_new : Json.null.setList "list" [] 0 = some (Json.longList "list" []) :=
  Json.setList_list_null

/-- A record read back under the id that a list gives. -/
theorem tweetObj_tweetDetails (t : Tweet) :
    tweetObj (Json.int32 t.id) (tweetDetails t) = some t.readBack := by
  simp [tweetObj, tweetDetails, Tweet.readBack, Json.field, List.lookup_cons, Json.asString,
    Json.asInteger]

theorem onMap_addUser (u : User) :
    (addUser u).onMap miss st.toMap = (.ok (), (st.addUser u).toMap) := by
  have hlist := onMap_getList miss Json.list_ne_count defaultSession
    (show st.toMap .users = st.users.map _ from rfl)
  simp [addUser, hlist, setList_new, TwitterState.addUser]

/-- The loop compares with what `as_integer` makes of the ids. -/
theorem isFollowing_map (b : Int) (ids : List Int) :
    isFollowing b (ids.map Json.long) = some (decide (b ∈ ids.map Json.int32)) := by
  induction ids with
  | nil => rfl
  | cons id ids ih =>
      show (if Json.int32 id = b then some true else isFollowing b (ids.map Json.long)) = _
      by_cases h : Json.int32 id = b
      · simp [h]
      · rw [if_neg h, ih]
        simp [Ne.symm h]

theorem onMap_follow (a b : User) :
    (follow a b).onMap miss st.toMap = (.ok (), (st.follow a.id b.id).toMap) := by
  have hfollowing : st.toMap (.following a.id)
      = (st.following a.id).map (Json.longList "list") := rfl
  unfold follow TwitterState.follow
  cases hf : st.following a.id with
  | none => simp [hfollowing, hf]
  | some following =>
      by_cases hmem : b.id ∈ following.map Json.int32
      · simp [hfollowing, hf, isFollowing_map, hmem]
      · -- the followers are read once the new list of whom `a` follows is stored
        have hfollowers : ∀ following' : Int → Option (List Int),
            { st with following := following' }.toMap (.followers b.id)
              = (st.followers b.id).map (Json.longList "list") := fun _ => rfl
        unfold setFollowers
        cases hb : st.followers b.id with
        | none =>
            simp [hfollowing, hf, isFollowing_map, hmem, hfollowers, hb]
        | some followers =>
            simp [hfollowing, hf, isFollowing_map, hmem, hfollowers, hb]

theorem onMap_publishTweet (u : User) (t : Tweet) :
    (publishTweet u t).onMap miss st.toMap = (.ok (), (st.publishTweet u.id t).toMap) := by
  have htweets : st.toMap (.tweets u.id) = (st.tweets u.id).map (Json.longList "list") := rfl
  unfold publishTweet TwitterState.publishTweet
  cases ht : st.tweets u.id with
  | none => simp [htweets, ht]
  | some tweets =>
      simp [htweets, ht]

section Getters

variable {st} (hst : st.Recorded) (sort : TweetSort) (s : Int)
include hst

/-- The loop of a timeline skips the ids that there is no record of. -/
theorem onMap_allTweets (ids : List Int) :
    (allTweets s (ids.map .long)).onMap miss st.toMap
      = (.ok (ids.filterMap st.tweetAt), st.toMap) := by
  induction ids with
  | nil => rfl
  | cons id ids ih =>
      have hid : (Json.long id).asInteger = some (Json.int32 id) := rfl
      have hrecord : st.toMap (.tweet (Json.int32 id))
          = (st.tweet (Json.int32 id)).map tweetDetails := rfl
      rw [List.map_cons, allTweets, List.filterMap_cons, tweetAt]
      cases ht : st.tweet (Json.int32 id) with
      | none => simp [hid, hrecord, ht, ih]
      | some t =>
          have hobj := tweetObj_tweetDetails t
          rw [hst _ t ht, Json.int32_int32] at hobj
          simp [hid, hrecord, ht, hobj, ih]

theorem onMap_timeline (u : Int) : (timeline sort u s).onMap miss st.toMap
    = (.ok (sort.sort (st.tweetsOf u)), st.toMap) := by
  have htweets : st.toMap (.tweets u) = (st.tweets u).map (Json.longList "list") := rfl
  unfold timeline tweetsOf
  cases hlist : st.tweets u with
  | none => simp [htweets, hlist]
  | some ids => simp [htweets, hlist, onMap_allTweets miss hst s ids]

theorem onMap_timelines (us : List Int) : (timelines sort s (us.map .long)).onMap miss st.toMap
    = (.ok (st.timelines sort us), st.toMap) := by
  induction us with
  | nil => rfl
  | cons u us ih =>
      have hid : (Json.long u).asInteger = some (Json.int32 u) := rfl
      rw [List.map_cons, Twitter.timelines]
      simp [hid, onMap_timeline miss hst sort s, ih, TwitterState.timelines]

theorem onMap_getNewsfeed (u : User) : (getNewsfeed sort u).onMap miss st.toMap
    = (.ok (sort.sort (st.timelines sort ((st.following u.id).getD []))), st.toMap) := by
  have hfollowing : st.toMap (.following u.id)
      = (st.following u.id).map (Json.longList "list") := rfl
  unfold getNewsfeed
  cases hf : st.following u.id with
  | none => simp [hfollowing, hf, TwitterState.timelines]
  | some following =>
      simp [hfollowing, hf, onMap_timelines miss hst sort u.id following]

theorem onMap_getAllTimeline : (getAllTimeline sort s).onMap miss st.toMap
    = (.ok (st.timelines sort (st.users.getD [])), st.toMap) := by
  have husers : st.toMap .users = st.users.map (Json.longList "list") := rfl
  unfold getAllTimeline
  cases hu : st.users with
  | none => simp [husers, hu, TwitterState.timelines]
  | some users =>
      simp [husers, hu, onMap_timelines miss hst sort s users]

end Getters

/-- A call whose result is dropped and that stores nothing. -/
theorem onMap_getter {α : Type} {p : App TwitterKey α} (hp : p.Writes fun _ => False)
    (m : TwitterKey → Option Json) :
    ((p >>= fun _ => pure () : App TwitterKey Unit).onMap miss m).2 = m := by
  funext key
  have hwrites : (p >>= fun _ => pure () : App TwitterKey Unit).Writes fun _ => False :=
    hp.bind fun _ => trivial
  exact hwrites.onMap miss m id

/-- **A call on the map of a state leaves the map of the next state.** -/
theorem onMap_program (sort : TweetSort) (op : TwitterOp) :
    ((op.program sort).onMap miss st.toMap).2 = (st.step op).toMap := by
  cases op with
  | addUser u => rw [TwitterOp.program, onMap_addUser]; rfl
  | follow a b => rw [TwitterOp.program, onMap_follow]; rfl
  | publishTweet u t => rw [TwitterOp.program, onMap_publishTweet]; rfl
  | getNewsfeed u => exact onMap_getter miss (writes_getNewsfeed sort u) _
  | getTimeline u s => exact onMap_getter miss (writes_timeline sort s u.id) _
  | getAllTimeline s => exact onMap_getter miss (writes_getAllTimeline sort s) _

end OnMap

/-! ## Whole calls, one at a time -/

section Calls

variable (sort : TweetSort) (sel : ReadResponseSelector) (calls : List TwitterCall)

theorem after_concat (call : TwitterCall) :
    after sort sel (calls ++ [call])
      = (App.run TwitterKey.name (call.op.program sort) call.draws (after sort sel calls)).2 := by
  simp [after, runAll]

/-- The state that calls lead to. -/
def state : TwitterState := TwitterState.run (calls.map TwitterCall.op)

theorem state_concat (call : TwitterCall) :
    state (calls ++ [call]) = (state calls).step call.op := by
  rw [state, List.map_append, List.map_singleton, run_concat, state]

theorem recorded_state : (state calls).Recorded := recorded_run _

/-- **A linearizable store holds the state that the calls lead to.** -/
theorem contents_after : Strong (after sort .linearizable calls)
    ∧ contents TwitterKey.name (after sort .linearizable calls) = (state calls).toMap := by
  have hinit : contents TwitterKey.name (World.init .linearizable) = empty.toMap := by
    refine contents_init.trans ?_
    funext key
    cases key <;> rfl
  rw [state, TwitterState.run, List.foldl_map]
  exact runAll_simulates TwitterKey.name_injective
    (fun st call => onMap_program _ st sort call.op) TwitterCall.draws calls strong_init hinit

end Calls

end Twitter

end MockDB
