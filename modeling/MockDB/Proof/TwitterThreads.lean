import MockDB.Proof.Threads
import MockDB.Proof.TwitterRun

/-!
# Twitter, under any isolation

Weak reads lose tweets and followers, but they never make any up. Every version of a list
has ids that some call put there, and every version of a tweet's record is a tweet that
some call published. So no call throws, and whatever interleaves with it, a newsfeed is made of
tweets that were published, under ids of those that its reader follows.
-/

namespace MockDB

namespace Twitter

open App

/-- What calls publish, and who follows whom by them. -/
structure Calls where
  Publishes : Int → Tweet → Prop
  Follows : Int → Int → Prop

variable (c : Calls)

/-- What every version under a key is. -/
def Calls.Fits : TwitterKey → Json → Prop
  | .username _, _ => True
  | .following a, v => ∃ ids, v = Json.longList "list" ids ∧ ∀ b ∈ ids, c.Follows a b
  | .tweets u, v =>
      ∃ ts : List Tweet, v = Json.longList "list" (ts.map (·.id)) ∧ ∀ t ∈ ts, c.Publishes u t
  | .tweet id, v => ∃ u t, c.Publishes u t ∧ t.id = id ∧ v = tweetDetails t
  | _, v => ∃ ids, v = Json.longList "list" ids

/-- A tweet that some call published, as it is read back, under an id that user `u` has published
too, as that is read back. -/
def Calls.Genuine (u : Int) (t : Tweet) : Prop :=
  (∃ t', c.Publishes u t' ∧ Json.int32 t'.id = t.id)
    ∧ ∃ u' t', c.Publishes u' t' ∧ t'.id = t.id ∧ t'.readBack = t

/-- What a call may return. -/
def Calls.Allows : TwitterOp → List Tweet → Prop
  | .getNewsfeed u, tweets =>
      tweets.Pairwise (fun a b => a.timestamp ≤ b.timestamp)
        ∧ ∀ t ∈ tweets, ∃ b, c.Follows u.id b ∧ c.Genuine (Json.int32 b) t
  | .getTimeline u _, tweets =>
      tweets.Pairwise (fun a b => a.timestamp ≤ b.timestamp) ∧ ∀ t ∈ tweets, c.Genuine u.id t
  | .getAllTimeline _, tweets => ∀ t ∈ tweets, ∃ u, c.Genuine u t
  | _, tweets => tweets = []

/-- What the calls of all threads publish and follow. -/
def Calls.of (calls : Nat → List (Bool × TwitterOp)) : Calls where
  Publishes u t := ∃ i, ∃ call ∈ calls i, call.2.tweetPublished = some (u, t)
  Follows a b := ∃ i, ∃ call ∈ calls i, call.2.followed = some (a, b)

variable {c} {miss : TwitterKey → StoreException String}

/-- Operations return, whatever versions they read. -/
abbrev Returns {α : Type} (c : Calls) (miss : TwitterKey → StoreException String)
    (p : App TwitterKey α) (Q : α → Prop) : Prop :=
  Program.Returns c.Fits (fun _ => False) miss p Q

/-- An id goes at the end of a list. -/
theorem append_then {α : Type} {key : TwitterKey} {ids : List Int} {id : Int} (s : Int)
    {rest : App TwitterKey α} {Q : α → Prop}
    (hkey : c.Fits key (Json.longList "list" (ids ++ [id]))) (h : Returns c miss rest Q) :
    Returns c miss (do
      let count ← json (Json.longList "list" ids).count
      let list ← json ((Json.longList "list" ids).appendAt "list" count (.long id))
      put key list s
      rest) Q :=
  json_then (Json.count_longList ids)
    (json_then (Json.appendAt_longList ids id) (put_then s hkey h))

/-! ## One lemma for each operation -/

theorem returns_addUser (u : User) : Returns c miss (addUser u) fun _ => True := by
  refine Program.Returns.bind (returns_getList Json.list_ne_count _ (Q := c.Fits .users)
    ⟨[], rfl⟩ fun _ hv => hv) fun users husers => ?_
  obtain ⟨ids, rfl⟩ := husers
  have hkey : c.Fits .users (Json.longList "list" (ids ++ [u.id])) := ⟨_, rfl⟩
  have hfollowing : c.Fits (.following u.id) (Json.longList "list" []) :=
    ⟨[], rfl, fun _ hb => nomatch hb⟩
  have hfollowers : c.Fits (.followers u.id) (Json.longList "list" []) := ⟨[], rfl⟩
  have htweets : c.Fits (.tweets u.id) (Json.longList "list" []) :=
    ⟨[], rfl, fun _ ht => nomatch ht⟩
  refine append_then _ hkey (json_then setList_new ?_)
  refine put_then _ (show c.Fits (.username u.id) _ from trivial) ?_
  exact put_then _ hfollowing (put_then _ hfollowers (returns_put _ htweets trivial))

theorem returns_follow {a b : User} (hfollows : c.Follows a.id b.id) :
    Returns c miss (follow a b) fun _ => True := by
  refine attempt_get_then _ (Program.returns_pure trivial) fun v hv => ?_
  obtain ⟨ids, rfl, hids⟩ := hv
  refine json_then (Json.elements_longList ids) (json_then (isFollowing_map b.id ids) ?_)
  by_cases hb : b.id ∈ ids.map Json.int32
  · rw [if_pos (decide_eq_true hb)]
    exact Program.returns_pure trivial
  · rw [if_neg (by rwa [decide_eq_true_iff])]
    have hkey : c.Fits (.following a.id) (Json.longList "list" (ids ++ [b.id])) := by
      refine ⟨_, rfl, fun b' hb' => ?_⟩
      rcases List.mem_append.mp hb' with hold | hnew
      · exact hids b' hold
      · exact List.mem_singleton.mp hnew ▸ hfollows
    refine append_then _ hkey (attempt_get_then _ (Program.returns_pure trivial) fun v hv => ?_)
    obtain ⟨ids', rfl⟩ := hv
    have hfollowers : c.Fits (.followers a.id) (Json.longList "list" (ids' ++ [a.id])) := ⟨_, rfl⟩
    exact json_then (Json.count_longList ids')
      (json_then (Json.appendAt_longList ids' a.id) (returns_put _ hfollowers trivial))

theorem returns_publishTweet {u : User} {t : Tweet} (hpublishes : c.Publishes u.id t) :
    Returns c miss (publishTweet u t) fun _ => True := by
  refine attempt_get_then _ (Program.returns_pure trivial) fun v hv => ?_
  obtain ⟨ts, rfl, hts⟩ := hv
  have hkey : c.Fits (.tweets u.id) (Json.longList "list" (ts.map (·.id) ++ [t.id])) := by
    refine ⟨ts ++ [t], by rw [List.map_append, List.map_singleton], fun t' ht' => ?_⟩
    rcases List.mem_append.mp ht' with hold | hnew
    · exact hts t' hold
    · exact List.mem_singleton.mp hnew ▸ hpublishes
  have hdetails : c.Fits (.tweet t.id) (tweetDetails t) := ⟨u.id, t, hpublishes, rfl, rfl⟩
  exact append_then _ hkey (returns_put _ hdetails trivial)

/-- The loop over a list of tweets that `u` published skips those it finds no record of. -/
theorem returns_allTweets (s : Int) {u : Int} {ts : List Tweet}
    (hts : ∀ t ∈ ts, c.Publishes u t) :
    Returns c miss (allTweets s (ts.map fun t => .long t.id)) fun tweets =>
      ∀ t ∈ tweets, c.Genuine u t := by
  induction ts with
  | nil => exact Program.returns_pure fun t ht => nomatch ht
  | cons t ts ih =>
      have hrest := ih fun t' ht' => hts t' (List.mem_cons_of_mem _ ht')
      refine attempt_get_then (P := c.Fits) s hrest fun v hv => ?_
      obtain ⟨u', t', hpublishes, hid, rfl⟩ := hv
      -- the record is under the id that the list gives, so that is its own id
      have hback : Json.int32 t'.id = t'.id := by rw [hid, Json.int32_int32]
      have hobj := tweetObj_tweetDetails t'
      rw [hback, hid] at hobj
      refine json_then (a := Json.int32 t.id) rfl
        (json_then hobj (Program.Returns.bind hrest fun more hmore => ?_))
      refine Program.returns_pure fun t'' ht'' => ?_
      rcases List.mem_cons.mp ht'' with rfl | hold
      · exact ⟨⟨t, hts t List.mem_cons_self, by rw [← hid, ← hback]; rfl⟩,
          u', t', hpublishes, hback.symm, rfl⟩
      · exact hmore t'' hold

variable (sort : TweetSort)

/-- A timeline: in order of time, with nothing but tweets under ids that `u` published. -/
theorem returns_timeline (u s : Int) :
    Returns c miss (timeline sort u s) fun tweets =>
      tweets.Pairwise (fun a b => a.timestamp ≤ b.timestamp) ∧ ∀ t ∈ tweets, c.Genuine u t := by
  refine attempt_get_then _ (Program.returns_pure ⟨.nil, fun t ht => nomatch ht⟩) fun v hv => ?_
  obtain ⟨ts, rfl, hts⟩ := hv
  refine json_then (Json.elements_longList _) ?_
  rw [List.map_map]
  refine Program.Returns.bind (returns_allTweets s hts) fun tweets htweets => ?_
  refine Program.returns_pure ⟨sort.sorted tweets, fun t ht => ?_⟩
  exact htweets t ((sort.perm tweets).mem_iff.mp ht)

theorem returns_timelines (s : Int) (ids : List Int) :
    Returns c miss (timelines sort s (ids.map Json.long)) fun tweets =>
      ∀ t ∈ tweets, ∃ u ∈ ids, c.Genuine (Json.int32 u) t := by
  induction ids with
  | nil => exact Program.returns_pure fun t ht => nomatch ht
  | cons id ids ih =>
      refine json_then (a := Json.int32 id) rfl ?_
      refine Program.Returns.bind (returns_timeline sort (Json.int32 id) s) fun tweets htweets => ?_
      refine Program.Returns.bind ih fun more hmore => Program.returns_pure fun t ht => ?_
      rcases List.mem_append.mp ht with hfirst | hrest
      · exact ⟨id, List.mem_cons_self, htweets.2 t hfirst⟩
      · obtain ⟨u, hu, hgenuine⟩ := hmore t hrest
        exact ⟨u, List.mem_cons_of_mem _ hu, hgenuine⟩

theorem returns_getAllTimeline (s : Int) :
    Returns c miss (getAllTimeline sort s) fun tweets => ∀ t ∈ tweets, ∃ u, c.Genuine u t := by
  refine attempt_get_then _ (Program.returns_pure fun t ht => nomatch ht) fun v hv => ?_
  obtain ⟨ids, rfl⟩ := hv
  refine json_then (Json.elements_longList ids) ?_
  exact (returns_timelines sort s ids).mono fun tweets htweets t ht =>
    (htweets t ht).elim fun u hu => ⟨Json.int32 u, hu.2⟩

theorem returns_getNewsfeed (u : User) :
    Returns c miss (getNewsfeed sort u) fun tweets =>
      tweets.Pairwise (fun a b => a.timestamp ≤ b.timestamp)
        ∧ ∀ t ∈ tweets, ∃ b, c.Follows u.id b ∧ c.Genuine (Json.int32 b) t := by
  refine attempt_get_then _ (Program.returns_pure ⟨.nil, fun t ht => nomatch ht⟩) fun v hv => ?_
  obtain ⟨ids, rfl, hids⟩ := hv
  refine json_then (Json.elements_longList ids) ?_
  refine Program.Returns.bind (returns_timelines sort u.id ids) fun tweets htweets => ?_
  refine Program.returns_pure ⟨sort.sorted tweets, fun t ht => ?_⟩
  obtain ⟨b, hb, hgenuine⟩ := htweets t ((sort.perm tweets).mem_iff.mp ht)
  exact ⟨b, hids b hb, hgenuine⟩

theorem returns_tweets {op : TwitterOp}
    (hpublishes : ∀ u t, op.tweetPublished = some (u, t) → c.Publishes u t)
    (hfollows : ∀ a b, op.followed = some (a, b) → c.Follows a b) :
    Returns c miss (op.tweets sort) (c.Allows op) := by
  cases op with
  | addUser u => exact (returns_addUser u).bind fun _ _ => Program.returns_pure rfl
  | follow a b =>
      exact (returns_follow (hfollows a.id b.id rfl)).bind fun _ _ => Program.returns_pure rfl
  | publishTweet u t =>
      exact (returns_publishTweet (hpublishes u.id t rfl)).bind fun _ _ => Program.returns_pure rfl
  | getNewsfeed u => exact returns_getNewsfeed sort u
  | getTimeline u s => exact returns_timeline sort u.id s
  | getAllTimeline s => exact returns_getAllTimeline sort s

/--
**No call makes tweets up**, on a store of any selector, whatever threads there are, whichever of
their calls stand between `tx_start` and `tx_end`, and however they interleave. No exception
leaves a thread. A newsfeed and a timeline are in order of time, and each tweet in them is one
that some call published, under an id that the user, or one that the reader follows, has
published too; tweets and ids as `as_integer` reads them back.
-/
theorem threads_genuine (sel : ReadResponseSelector) (calls : Nat → List (Bool × TwitterOp))
    (turns : List (Nat × Draws)) :
    let pool := threads TwitterKey.name (World.init sel)
      (fun i => (calls i).map fun call => ⟨call.1, call.2.tweets sort⟩) turns
    (∀ (i n : Nat) (e : AppException), ¬ StoppedAt pool i n e)
      ∧ ∀ (i n : Nat) (tweets : List Tweet), (pool.parties i).results[n]? = some tweets →
          ∃ call, (calls i)[n]? = some call ∧ (Calls.of calls).Allows call.2 tweets := by
  intro pool
  obtain ⟨hstopped, hresults⟩ := calls_among TwitterKey.name_injective (holds_init sel)
    (fun call : Bool × TwitterOp => ⟨call.1, call.2.tweets sort⟩)
    (fun i call hcall => returns_tweets (c := Calls.of calls) sort
      (fun u t h => ⟨i, call, hcall, h⟩) fun a b h => ⟨i, call, hcall, h⟩) turns
  refine ⟨fun i n e hstop => ?_, fun i n tweets hn => ?_⟩
  · obtain ⟨-, -, tweets, heq, -⟩ := hstopped i n e hstop
    cases heq
  · obtain ⟨call, hcall, tweets', heq, hallows⟩ := hresults i n tweets hn
    exact ⟨call, hcall, Except.ok.inj heq ▸ hallows⟩

end Twitter

end MockDB
