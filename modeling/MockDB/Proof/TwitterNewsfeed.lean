import MockDB.Proof.TwitterTimeline
import MockDB.Proof.TwitterAtomic

/-!
# The newsfeed on a linearizable store

A newsfeed takes the timelines of the users on one list, one after another, and sorts what
it got. The list has each user that was followed, once. Each timeline has what its user
published, since a tweet's record is stored with its id. So the newsfeed is what those users
published, each tweet once, in the order of time. That goes for ids, times and counts that are
`int`s, which `as_integer` gives back.
-/

namespace MockDB

namespace TwitterState

section Follow

variable {st : TwitterState} {a b : Int}

/-- A new follow goes on the list of whom `a` follows, whatever becomes of the followers. -/
theorem following_follow_of_not_mem {ids : List Int} (ha : st.following a = some ids)
    (hb : b ∉ ids.map Json.int32) :
    (st.follow a b).following = Function.update st.following a (some (ids ++ [b])) := by
  unfold follow setFollowers
  rw [ha]
  dsimp only
  rw [if_neg hb]
  cases st.followers b <;> simp

theorem following_follow_ne {c : Int} (hc : c ≠ a) :
    (st.follow a b).following c = st.following c := by
  cases ha : st.following a with
  | none => rw [follow_of_none ha]
  | some ids =>
      by_cases hb : b ∈ ids.map Json.int32
      · rw [follow_of_mem ha hb]
      · rw [following_follow_of_not_mem ha hb, Function.update_of_ne hc]

end Follow

end TwitterState

namespace Twitter

open App TwitterState

/-- The tweets published by the users that `a` has followed, in the order of the calls. -/
def publishedByFollowed (a : Int) (calls : List TwitterCall) : List Tweet :=
  calls.filterMap fun call =>
    (call.op.tweetPublished.filter fun published => (a, published.1) ∈ followed calls).map Prod.snd

section Calls

variable {calls : List TwitterCall} {call : TwitterCall}

theorem AddedFirst.published_added (h : AddedFirst calls) {u : Int}
    (hu : u ∉ usersAdded calls) : published u calls = [] := by
  refine List.filterMap_eq_nil_iff.mpr fun call hcall => Option.map_eq_none_iff.mpr ?_
  refine Option.filter_eq_none_iff.mpr fun p hp hpu => hu ?_
  have hused : call.op.usersUsed = [u] := by
    cases hc : call.op with
    | publishTweet u' t =>
        rw [hc] at hp
        rw [← of_decide_eq_true hpu, ← Option.some.inj hp]
        rfl
    | _ => rw [hc] at hp; exact nomatch hp
  exact h.mem_usersAdded hcall (by rw [hused]; exact List.mem_cons_self)

end Calls

/-! ## Ids, times and counts that are `int`s -/

/-- All that the calls store are `int`s. -/
def OfInts (calls : List TwitterCall) : Prop :=
  ∀ call ∈ calls, ∀ n ∈ call.op.longs, Json.IsInt n

instance (calls : List TwitterCall) : Decidable (OfInts calls) :=
  inferInstanceAs (Decidable (∀ call ∈ calls, ∀ n ∈ call.op.longs, Json.IsInt n))

section OfInts

variable {calls : List TwitterCall} (h : OfInts calls)
include h

theorem OfInts.mono {done : List TwitterCall} (hpre : done <+: calls) : OfInts done :=
  fun call hcall => h call (hpre.subset hcall)

theorem OfInts.followed {a b : Int} (hab : (a, b) ∈ followed calls) : Json.IsInt b := by
  obtain ⟨call, hcall, hop⟩ := List.mem_filterMap.mp hab
  refine h call hcall b ?_
  cases hc : call.op with
  | follow a' b' =>
      rw [hc] at hop
      obtain ⟨-, rfl⟩ := Prod.mk.inj (Option.some.inj hop)
      exact List.mem_cons_self
  | _ => rw [hc] at hop; exact nomatch hop

/-- A tweet that was published is read back as it is. -/
theorem OfInts.published {u : Int} {t : Tweet} (ht : t ∈ published u calls) :
    Json.int32 t.id = t.id ∧ t.readBack = t := by
  obtain ⟨call, hcall, hop⟩ := List.mem_filterMap.mp ht
  obtain ⟨p, hp, rfl⟩ := Option.map_eq_some_iff.mp hop
  have hlongs : call.op.longs = [p.2.id, p.2.timestamp, p.2.likes, p.2.retweets] := by
    cases hc : call.op with
    | publishTweet u' t =>
        rw [hc] at hp
        rw [← Option.some.inj (Option.filter_eq_some_iff.mp hp).1]
        rfl
    | _ => rw [hc] at hp; exact nomatch hp
  have hint : ∀ n ∈ call.op.longs, Json.int32 n = n := fun n hn => Json.int32_eq (h call hcall n hn)
  simp only [hlongs, List.forall_mem_cons] at hint
  obtain ⟨hid, htime, hlikes, hretweets, -⟩ := hint
  refine ⟨hid, ?_⟩
  unfold Tweet.readBack
  rw [hid, htime, hlikes, hretweets]

end OfInts

/-! ## The lists and the records -/

/-- What the lists and the records hold after calls. -/
structure Fed (calls : List TwitterCall) (st : TwitterState) : Prop where
  /-- A user's list has each user it has followed, once. -/
  following : ∀ a ∈ usersAdded calls, ∃ ids, st.following a = some ids ∧ ids.Nodup
    ∧ ∀ b, b ∈ ids ↔ (a, b) ∈ followed calls
  tweets : ∀ u ∈ usersAdded calls, st.tweets u = some ((published u calls).map Tweet.id)
  tweet : ∀ u t, t ∈ published u calls → st.tweet t.id = some t

section Step

variable {calls : List TwitterCall} {st : TwitterState} {call : TwitterCall}

/-- Calls of which the lists and the records show nothing. -/
theorem Fed.of_same (h : Fed calls st) (hadd : call.op.userAdded = none)
    (hfollow : call.op.followed = none) (hpublish : call.op.tweetPublished = none) :
    Fed (calls ++ [call]) st := by
  have hadded := usersAdded_of_none calls hadd
  have hfollowed : followed (calls ++ [call]) = followed calls := followed_of_none hfollow
  have hpub := fun u => published_of_none u calls hpublish
  refine ⟨fun a ha => ?_, fun u hu => ?_, fun u t ht => ?_⟩
  · rw [hadded] at ha
    rw [hfollowed]
    exact h.following a ha
  · rw [hadded] at hu
    rw [hpub]
    exact h.tweets u hu
  · rw [hpub] at ht
    exact h.tweet u t ht

/-- A new user has followed nobody and published nothing. -/
theorem Fed.addUser (h : Fed calls st) (hfirst : AddedFirst calls) {u : User}
    (hop : call.op = .addUser u) (hnew : u.id ∉ usersAdded calls) :
    Fed (calls ++ [call]) (st.addUser u) := by
  have hadded : usersAdded (calls ++ [call]) = usersAdded calls ++ [u.id] := by
    rw [usersAdded_concat, hop]; rfl
  have hfollowed : followed (calls ++ [call]) = followed calls :=
    followed_of_none (by rw [hop]; rfl)
  have hpub : ∀ v, published v (calls ++ [call]) = published v calls := fun v =>
    published_of_none v calls (by rw [hop]; rfl)
  refine ⟨fun a ha => ?_, fun v hv => ?_, fun v t ht => ?_⟩
  · rw [hfollowed]
    by_cases heq : a = u.id
    · subst heq
      refine ⟨[], Function.update_self .., List.nodup_nil, fun b => ?_⟩
      exact iff_of_false List.not_mem_nil fun hmem => hnew (hfirst.followed_added hmem).1
    · rw [following_addUser_ne heq]
      rw [hadded, List.mem_append, List.mem_singleton] at ha
      exact h.following a (ha.resolve_right heq)
  · rw [hpub]
    by_cases heq : v = u.id
    · subst heq
      rw [hfirst.published_added hnew]
      exact Function.update_self ..
    · rw [hadded, List.mem_append, List.mem_singleton] at hv
      exact (Function.update_of_ne heq _ _).trans (h.tweets v (hv.resolve_right heq))
  · rw [hpub] at ht
    exact h.tweet v t ht

/-- Whom a user follows goes on its list, unless it is there. -/
theorem Fed.follow (h : Fed calls st) (hints : OfInts calls) {a b : User}
    (hop : call.op = .follow a b) :
    Fed (calls ++ [call]) (st.follow a.id b.id) := by
  have hadded : usersAdded (calls ++ [call]) = usersAdded calls :=
    usersAdded_of_none calls (by rw [hop]; rfl)
  have hfollowed : followed (calls ++ [call]) = followed calls ++ [(a.id, b.id)] := by
    rw [followed_concat, hop]; rfl
  have hpub : ∀ v, published v (calls ++ [call]) = published v calls := fun v =>
    published_of_none v calls (by rw [hop]; rfl)
  obtain ⟨htweets, htweet⟩ : (st.follow a.id b.id).tweets = st.tweets
      ∧ (st.follow a.id b.id).tweet = st.tweet := tweets_follow a.id b.id
  have hmem : ∀ c d, (c, d) ∈ followed (calls ++ [call])
      ↔ (c, d) ∈ followed calls ∨ c = a.id ∧ d = b.id := by
    intro c d
    rw [hfollowed, List.mem_append, List.mem_singleton, Prod.mk.injEq]
  refine ⟨fun c hc => ?_, fun v hv => ?_, fun v t ht => ?_⟩
  · rw [hadded] at hc
    obtain ⟨ids, hids, hnodup, hiff⟩ := h.following c hc
    by_cases hca : c = a.id
    · subst hca
      have hread : ids.map Json.int32 = ids :=
        Json.map_int32 fun d hd => hints.followed ((hiff d).mp hd)
      by_cases hb : b.id ∈ ids.map Json.int32
      · rw [hread] at hb
        refine ⟨ids, by rw [follow_of_mem hids (hread.symm ▸ hb), hids], hnodup, fun d => ?_⟩
        rw [hmem, ← hiff]
        exact ⟨Or.inl, fun hor => hor.elim id fun heq => heq.2 ▸ hb⟩
      · refine ⟨ids ++ [b.id], ?_, ?_, fun d => ?_⟩
        · rw [following_follow_of_not_mem hids hb, Function.update_self]
        · exact ListOrder.nodup_concat.mpr ⟨hread ▸ hb, hnodup⟩
        · rw [hmem, ← hiff, List.mem_append, List.mem_singleton]
          exact or_congr_right (and_iff_right rfl).symm
    · refine ⟨ids, by rw [following_follow_ne hca, hids], hnodup, fun d => ?_⟩
      rw [hmem, hiff]
      exact (or_iff_left fun heq => hca heq.1).symm
  · rw [hadded] at hv
    rw [htweets, hpub]
    exact h.tweets v hv
  · rw [hpub] at ht
    rw [htweet]
    exact h.tweet v t ht

/-- A tweet goes on its user's list, and into the record under its id. -/
theorem Fed.publishTweet (h : Fed calls st) {u : User} {t : Tweet}
    (hop : call.op = .publishTweet u t) (hu : u.id ∈ usersAdded calls)
    (hnew : t.id ∉ tweetIds calls) : Fed (calls ++ [call]) (st.publishTweet u.id t) := by
  have hadded : usersAdded (calls ++ [call]) = usersAdded calls :=
    usersAdded_of_none calls (by rw [hop]; rfl)
  have hfollowed : followed (calls ++ [call]) = followed calls :=
    followed_of_none (by rw [hop]; rfl)
  have htold : call.op.tweetPublished = some (u.id, t) := by rw [hop]; rfl
  have hpub : published u.id (calls ++ [call]) = published u.id calls ++ [t] :=
    published_of_self calls htold
  have hpub_ne : ∀ v, v ≠ u.id → published v (calls ++ [call]) = published v calls :=
    fun v hv => published_of_other calls htold hv
  have hstate : st.publishTweet u.id t = { st with
      tweets := Function.update st.tweets u.id
        (some ((published u.id calls).map Tweet.id ++ [t.id]))
      tweet := Function.update st.tweet t.id (some t) } := by
    rw [TwitterState.publishTweet, h.tweets u.id hu]
  rw [hstate]
  refine ⟨fun a ha => ?_, fun v hv => ?_, fun v t' ht => ?_⟩
  · rw [hadded] at ha
    rw [hfollowed]
    exact h.following a ha
  · rw [hadded] at hv
    by_cases heq : v = u.id
    · subst heq
      rw [hpub, List.map_append]
      exact Function.update_self ..
    · rw [hpub_ne v heq]
      exact (Function.update_of_ne heq _ _).trans (h.tweets v hv)
  · show Function.update st.tweet t.id (some t) t'.id = some t'
    have hold : t' ∈ published v calls →
        Function.update st.tweet t.id (some t) t'.id = some t' := by
      intro hmem
      have hne : t'.id ≠ t.id := fun heq => hnew (heq ▸ mem_tweetIds hmem)
      rw [Function.update_of_ne hne]
      exact h.tweet v t' hmem
    by_cases heq : v = u.id
    · subst heq
      rw [hpub, List.mem_append, List.mem_singleton] at ht
      rcases ht with hmem | rfl
      · exact hold hmem
      · exact Function.update_self ..
    · rw [hpub_ne v heq] at ht
      exact hold ht

/-- **Each call** leaves the lists and the records as the calls so far make them. -/
theorem fed_step (h : Fed calls st) (hints : OfInts calls) (hfirst : AddedFirst (calls ++ [call]))
    (hnew : ∀ u, call.op.userAdded = some u → u ∉ usersAdded calls)
    (htweet : ∀ p, call.op.tweetPublished = some p → p.2.id ∉ tweetIds calls) :
    Fed (calls ++ [call]) (st.step call.op) := by
  obtain ⟨hcalls, hused⟩ := addedFirst_concat.mp hfirst
  cases hop : call.op with
  | addUser u => exact h.addUser hcalls hop (hnew u.id (by rw [hop]; rfl))
  | follow a b => exact h.follow hints hop
  | publishTweet u t =>
      exact h.publishTweet hop (hused u.id (by rw [hop]; exact List.mem_cons_self))
        (htweet (u.id, t) (by rw [hop]; rfl))
  | getNewsfeed u => exact h.of_same (by rw [hop]; rfl) (by rw [hop]; rfl) (by rw [hop]; rfl)
  | getTimeline u s => exact h.of_same (by rw [hop]; rfl) (by rw [hop]; rfl) (by rw [hop]; rfl)
  | getAllTimeline s => exact h.of_same (by rw [hop]; rfl) (by rw [hop]; rfl) (by rw [hop]; rfl)

end Step

theorem fed_state {calls : List TwitterCall} (hadded : (usersAdded calls).Nodup)
    (hused : AddedFirst calls) (htweets : (tweetIds calls).Nodup) (hints : OfInts calls) :
    Fed calls (state calls) := by
  have hnil : Fed [] (state []) :=
    ⟨fun a ha => (List.not_mem_nil ha).elim, fun u hu => (List.not_mem_nil hu).elim,
      fun u t ht => (List.not_mem_nil ht).elim⟩
  refine ListOrder.prefix_induction (I := fun done => Fed done (state done)) hnil ?_
    List.prefix_rfl
  intro done call hpre ih
  show Fed (done ++ [call]) (state (done ++ [call]))
  rw [state_concat]
  refine fed_step ih (hints.mono ((List.prefix_append done [call]).trans hpre)) ?_
    (fun u hu => ListOrder.not_mem_of_nodup_filterMap hadded hpre hu) fun p hp => ?_
  · exact fun done' call' hpre' => hused done' call' (hpre'.trans hpre)
  · exact ListOrder.not_mem_of_nodup_filterMap htweets hpre (by rw [hp]; rfl)

/-- A user's list names what it published. -/
theorem Fed.tweetsOf {calls : List TwitterCall} {st : TwitterState} (h : Fed calls st)
    (hints : OfInts calls) {u : Int} (hu : u ∈ usersAdded calls) :
    st.tweetsOf u = published u calls := by
  have hfound : ∀ t ∈ published u calls, st.tweetAt t.id = some t := by
    intro t ht
    obtain ⟨hid, hback⟩ := hints.published ht
    rw [tweetAt, hid, h.tweet u t ht, Option.map_some, hback]
  rw [TwitterState.tweetsOf, h.tweets u hu, Option.getD_some, List.filterMap_map]
  exact (List.filterMap_congr hfound).trans List.filterMap_some

/-! ## Any run -/

section Run

variable {calls : List TwitterCall}

/-- No two of the tweets have one id. -/
theorem publishedByFollowed_nodup (htweets : (tweetIds calls).Nodup) (a : Int) :
    ((publishedByFollowed a calls).map Tweet.id).Nodup := by
  unfold publishedByFollowed
  rw [List.map_filterMap]
  refine htweets.sublist (ListOrder.filterMap_sublist (fun call id hid => ?_) calls)
  obtain ⟨t, ht, rfl⟩ := Option.map_eq_some_iff.mp hid
  obtain ⟨p, hp, rfl⟩ := Option.map_eq_some_iff.mp ht
  rw [(Option.filter_eq_some_iff.mp hp).1]
  rfl

/-- A tweet has one publisher. -/
theorem mem_publishedByFollowed_iff (htweets : (tweetIds calls).Nodup) {b : Int} {t : Tweet}
    (ht : t ∈ published b calls) (a : Int) :
    t ∈ publishedByFollowed a calls ↔ (a, b) ∈ followed calls := by
  obtain ⟨call, hcall, hop⟩ := List.mem_filterMap.mp ht
  obtain ⟨p, hp, rfl⟩ := Option.map_eq_some_iff.mp hop
  obtain ⟨hpublished, hb⟩ := Option.filter_eq_some_iff.mp hp
  constructor
  · intro hmem
    obtain ⟨call', hcall', hop'⟩ := List.mem_filterMap.mp hmem
    obtain ⟨p', hp', heq⟩ := Option.map_eq_some_iff.mp hop'
    obtain ⟨hpublished', hfollowed⟩ := Option.filter_eq_some_iff.mp hp'
    have hsame : call' = call := ListOrder.eq_of_nodup_filterMap htweets hcall' hcall
      (b := p.2.id) (by rw [hpublished', Option.map_some, heq]) (by rw [hpublished]; rfl)
    rw [hsame, hpublished] at hpublished'
    rw [← of_decide_eq_true hb, Option.some.inj hpublished']
    exact of_decide_eq_true hfollowed
  · intro hfollowed
    refine List.mem_filterMap.mpr ⟨call, hcall, Option.map_eq_some_iff.mpr ⟨p, ?_, rfl⟩⟩
    refine Option.filter_eq_some_iff.mpr ⟨hpublished, decide_eq_true ?_⟩
    rw [of_decide_eq_true hb]
    exact hfollowed

/-- The timelines that a newsfeed is made of have what the users that were followed published. -/
theorem timelines_perm (sort : TweetSort) (hadded : (usersAdded calls).Nodup)
    (hused : AddedFirst calls) (htweets : (tweetIds calls).Nodup) (hints : OfInts calls) (a : Int) :
    ((state calls).timelines sort (((state calls).following a).getD [])).Perm
      (publishedByFollowed a calls) := by
  have hfed := fed_state hadded hused htweets hints
  by_cases ha : a ∈ usersAdded calls
  · obtain ⟨ids, hids, hnodup, hiff⟩ := hfed.following a ha
    have hread : ∀ u ∈ ids, sort.sort ((state calls).tweetsOf (Json.int32 u))
        = sort.sort (published u calls) := by
      intro u hu
      have hau := (hiff u).mp hu
      rw [Json.int32_eq (hints.followed hau), hfed.tweetsOf hints (hused.followed_added hau).2]
    rw [hids, Option.getD_some, TwitterState.timelines, List.flatMap_congr hread]
    -- each timeline is a reordering of what its user published
    refine (List.Perm.flatMap_left ids fun u _ => sort.perm (published u calls)).trans ?_
    refine (ListOrder.flatMap_view_perm hnodup _ calls).trans (List.Perm.of_eq ?_)
    unfold publishedByFollowed
    simp only [hiff]
  · have hnone := ((listsOf_state calls).following a).mpr ha
    rw [hnone]
    refine List.Perm.of_eq (List.filterMap_eq_nil_iff.mpr fun call _ => ?_).symm
    refine Option.map_eq_none_iff.mpr (Option.filter_eq_none_iff.mpr fun p _ hp => ha ?_)
    exact (hused.followed_added (of_decide_eq_true hp)).1

/-- **A newsfeed is the sorted merge of what the users that were followed published**: each of
their tweets, with all its contents, once, and nobody else's, if ids, times and counts are
`int`s. -/
theorem getNewsfeed_merges (sort : TweetSort) (calls : List TwitterCall)
    (hadded : (usersAdded calls).Nodup) (hused : AddedFirst calls)
    (htweets : (tweetIds calls).Nodup) (hints : OfInts calls) (a : User)
    (draws : Nat → Draws) :
    ∃ feed, (App.run TwitterKey.name (getNewsfeed sort a) draws
        (after sort .linearizable calls)).1 = .ok feed
      ∧ feed.Pairwise (fun t t' => t.timestamp ≤ t'.timestamp)
      ∧ feed.Perm (publishedByFollowed a.id calls)
      ∧ (feed.map Tweet.id).Nodup
      ∧ ∀ b, ∀ t ∈ published b calls, t ∈ feed ↔ (a.id, b) ∈ followed calls := by
  obtain ⟨hstrong, hcontents⟩ := contents_after sort calls
  have hfinal := (sort.perm _).trans (timelines_perm sort hadded hused htweets hints a.id)
  refine ⟨_, ?_, sort.sorted _, hfinal, ?_, fun b t ht => ?_⟩
  · rw [(run_onMap TwitterKey.name_injective (getNewsfeed sort a) draws hstrong).1, hcontents,
      onMap_getNewsfeed _ (recorded_state calls)]
  · exact (hfinal.map Tweet.id).nodup_iff.mpr (publishedByFollowed_nodup htweets a.id)
  · rw [hfinal.mem_iff]
    exact mem_publishedByFollowed_iff htweets ht a.id

end Run

/-- User 1 follows user 2, and says so twice. Users 2 and 3 tweet. -/
def followedTweets : List TwitterCall :=
  let one : User := ⟨1, "a"⟩
  let two : User := ⟨2, "b"⟩
  let three : User := ⟨3, "c"⟩
  [.addUser one, .addUser two, .addUser three, .follow one two, .follow one two,
    .publishTweet two ⟨1, "late", 5, 0, 0⟩, .publishTweet three ⟨2, "unseen", 1, 2, 3⟩,
    .publishTweet two ⟨3, "early", 4, 1, 0⟩].map fun op => ⟨op, fun _ => zeroDraws⟩

theorem addedFirst_followedTweets : AddedFirst followedTweets := by
  show AddedFirst ([] ++ [_] ++ [_] ++ [_] ++ [_] ++ [_] ++ [_] ++ [_] ++ [_])
  simp only [addedFirst_concat]
  exact ⟨⟨⟨⟨⟨⟨⟨⟨addedFirst_nil, by decide⟩, by decide⟩, by decide⟩, by decide⟩, by decide⟩,
    by decide⟩, by decide⟩, by decide⟩

theorem getNewsfeed_merges_followedTweets :
    ∃ feed, (App.run TwitterKey.name (getNewsfeed .stable ⟨1, "a"⟩) (fun _ => zeroDraws)
        (after .stable .linearizable followedTweets)).1 = .ok feed
      ∧ feed.Pairwise (fun t t' => t.timestamp ≤ t'.timestamp)
      ∧ feed.Perm (publishedByFollowed 1 followedTweets)
      ∧ (feed.map Tweet.id).Nodup
      ∧ ∀ b, ∀ t ∈ published b followedTweets, t ∈ feed ↔ (1, b) ∈ followed followedTweets :=
  getNewsfeed_merges .stable followedTweets (by decide) addedFirst_followedTweets (by decide)
    (by decide) ⟨1, "a"⟩ fun _ => zeroDraws

end Twitter

end MockDB
