import MockDB.Proof.TwitterFollow

/-!
# Timelines on a weak store

A user's list of tweets is read and written by one session, its own. So `publish_tweet`
reads the last version however weak the store is, and the versions of the list are all the
prefixes of what the user has published. A tweet's record is written once. So a timeline is
what is found of a prefix of what was published, as long as the session's floor makes it at
least, and no later timeline that the session is shown is shorter.
-/

namespace MockDB

namespace Twitter

open App

/-- The tweets of a user that these calls publish, in their order. -/
def published (u : Int) (calls : List TwitterCall) : List Tweet :=
  calls.filterMap fun call =>
    (call.op.tweetPublished.filter fun published => published.1 = u).map Prod.snd

/-- The ids of the tweets that these calls publish. -/
def tweetIds (calls : List TwitterCall) : List Int :=
  calls.filterMap fun call => call.op.tweetPublished.map fun published => published.2.id

theorem published_concat (u : Int) (calls : List TwitterCall) (call : TwitterCall) :
    published u (calls ++ [call]) = published u calls
      ++ ((call.op.tweetPublished.filter fun tweet => tweet.1 = u).map Prod.snd).toList := by
  unfold published
  rw [List.filterMap_append]
  congr 1

theorem tweetIds_concat (calls : List TwitterCall) (call : TwitterCall) :
    tweetIds (calls ++ [call]) = tweetIds calls
      ++ (call.op.tweetPublished.map fun published => published.2.id).toList := by
  unfold tweetIds
  rw [List.filterMap_append]
  congr 1

theorem published_of_none (u : Int) (calls : List TwitterCall) {call : TwitterCall}
    (h : call.op.tweetPublished = none) :
    published u (calls ++ [call]) = published u calls := by
  rw [published_concat, h]
  exact List.append_nil _

theorem tweetIds_of_none (calls : List TwitterCall) {call : TwitterCall}
    (h : call.op.tweetPublished = none) : tweetIds (calls ++ [call]) = tweetIds calls := by
  rw [tweetIds_concat, h]
  exact List.append_nil _

theorem published_of_self (calls : List TwitterCall) {call : TwitterCall} {u : Int} {t : Tweet}
    (h : call.op.tweetPublished = some (u, t)) :
    published u (calls ++ [call]) = published u calls ++ [t] := by
  rw [published_concat, h]
  simp

theorem published_of_other (calls : List TwitterCall) {call : TwitterCall} {u v : Int} {t : Tweet}
    (h : call.op.tweetPublished = some (u, t)) (hv : v ≠ u) :
    published v (calls ++ [call]) = published v calls := by
  rw [published_concat, h]
  simp [Ne.symm hv]

theorem published_mono (u : Int) {done calls : List TwitterCall} (h : done <+: calls) :
    published u done <+: published u calls := by
  obtain ⟨rest, rfl⟩ := h
  unfold published
  rw [List.filterMap_append]
  exact List.prefix_append _ _

theorem mem_tweetIds {u : Int} {calls : List TwitterCall} {t : Tweet}
    (h : t ∈ published u calls) : t.id ∈ tweetIds calls := by
  obtain ⟨call, hcall, ht⟩ := List.mem_filterMap.mp h
  obtain ⟨p, hp, rfl⟩ := Option.map_eq_some_iff.mp ht
  refine List.mem_filterMap.mpr ⟨call, hcall, ?_⟩
  rw [(Option.filter_eq_some_iff.mp hp).1]
  rfl

theorem published_of_mem {calls : List TwitterCall} {id : Int} (h : id ∈ tweetIds calls) :
    ∃ u t, t ∈ published u calls ∧ t.id = id := by
  obtain ⟨call, hcall, hid⟩ := List.mem_filterMap.mp h
  obtain ⟨⟨u, t⟩, hp, rfl⟩ := Option.map_eq_some_iff.mp hid
  refine ⟨u, t, List.mem_filterMap.mpr ⟨call, hcall, ?_⟩, rfl⟩
  rw [hp]
  simp

/-- What holds of the registers after calls. -/
structure Kept (calls : List TwitterCall) (r : SessionRegister TwitterKey Json Int) : Prop where
  bounded : r.Bounded
  users : ∀ v ∈ r.versions .users, ∃ ids, v = Json.longList "list" ids
  /-- The versions of a user's list are all the prefixes of what it has published. -/
  tweets : ∀ u ∈ usersAdded calls, r.versions (.tweets u)
    = ((published u calls).map Tweet.id).inits.map (Json.longList "list")
  /-- A user's own session knows the last one. -/
  owner : ∀ u ∈ usersAdded calls, r.floor u (.tweets u) = (r.versions (.tweets u)).length
  noTweets : ∀ u, u ∉ usersAdded calls → r.versions (.tweets u) = [] ∧ published u calls = []
  /-- A tweet's record is written once. -/
  tweet : ∀ u t, t ∈ published u calls → r.versions (.tweet t.id) = [tweetDetails t]
  noTweet : ∀ id, id ∉ tweetIds calls → r.versions (.tweet id) = []

theorem kept_nil : Kept [] SessionRegister.empty where
  bounded _ _ := Nat.le_refl _
  users _ h := (List.not_mem_nil h).elim
  tweets _ h := (List.not_mem_nil h).elim
  owner _ h := (List.not_mem_nil h).elim
  noTweets _ _ := ⟨rfl, rfl⟩
  tweet _ _ h := (List.not_mem_nil h).elim
  noTweet _ _ := rfl

section Kept

variable {calls : List TwitterCall} {r : SessionRegister TwitterKey Json Int}

/-- What is read of a user's list is a prefix of what it has published. -/
theorem Kept.mayRead (h : Kept calls r) {u s : Int} (hu : u ∈ usersAdded calls) {i : Nat}
    {v : Json} (hread : r.MayRead s (.tweets u) i v) : i ≤ (published u calls).length
      ∧ v = Json.longList "list" (((published u calls).take i).map Tweet.id) := by
  obtain ⟨hlt, hv⟩ := List.getElem?_eq_some_iff.mp hread.1
  have hlen : i < ((published u calls).map Tweet.id).inits.length := by
    rw [h.tweets u hu, List.length_map] at hlt
    exact hlt
  have hget : (r.versions (.tweets u))[i]?
      = some (Json.longList "list" (((published u calls).map Tweet.id).take i)) := by
    rw [h.tweets u hu, List.getElem?_map, List.getElem?_eq_getElem hlen, List.getElem_inits]
    rfl
  rw [List.length_inits, List.length_map] at hlen
  refine ⟨Nat.le_of_lt_succ hlen, ?_⟩
  rw [hread.1] at hget
  rw [Option.some.inj hget, List.map_take]

/-- A record is of the tweet that its key names. -/
theorem Kept.records (h : Kept calls r) (id : Int) : r.versions (.tweet id) = []
    ∨ ∃ t, t.id = id ∧ r.versions (.tweet id) = [tweetDetails t] := by
  by_cases hid : id ∈ tweetIds calls
  · obtain ⟨u, t, ht, rfl⟩ := published_of_mem hid
    exact Or.inr ⟨t, rfl, h.tweet u t ht⟩
  · exact Or.inl (h.noTweet id hid)

/-- The tweet found by an id on a list. -/
def record (r : SessionRegister TwitterKey Json Int) (id : Int) : Option Tweet :=
  (r.versions (.tweet (Json.int32 id))).head?.bind (tweetObj (Json.int32 id))

/-- A tweet that is found is found after more calls too, as it was. -/
theorem Kept.record_mono {done : List TwitterCall} {r' : SessionRegister TwitterKey Json Int}
    (h : Kept done r) (h' : Kept calls r') (hpre : done <+: calls) {id : Int} {t : Tweet}
    (ht : record r id = some t) : record r' id = some t := by
  unfold record at ht ⊢
  by_cases hid : Json.int32 id ∈ tweetIds done
  · obtain ⟨u, t', ht', heq⟩ := published_of_mem hid
    have hold := h.tweet u t' ht'
    have hnew := h'.tweet u t' ((published_mono u hpre).subset ht')
    rw [heq] at hold hnew
    rwa [hnew, ← hold]
  · rw [h.noTweet _ hid] at ht
    cases ht

/-- Nothing that a list of tweets or a record of one is about changes. -/
structure Same (calls : List TwitterCall) (call : TwitterCall) : Prop where
  users : usersAdded (calls ++ [call]) = usersAdded calls
  published : ∀ u, published u (calls ++ [call]) = published u calls
  ids : tweetIds (calls ++ [call]) = tweetIds calls

/-- The keys that `follow` writes to. -/
def FollowKey (key : TwitterKey) : Prop := ∃ id, key = .following id ∨ key = .followers id

/-- Calls that neither publish nor add. -/
theorem Kept.of_grown (h : Kept calls r) {call : TwitterCall} (hsame : Same calls call)
    {r' : SessionRegister TwitterKey Json Int} (hgrown : Program.Grown FollowKey r r') :
    Kept (calls ++ [call]) r' := by
  have hother : ∀ key, (∀ id, key ≠ .following id ∧ key ≠ .followers id) → ¬ FollowKey key := by
    rintro key hkey ⟨id, heq | heq⟩
    · exact (hkey id).1 heq
    · exact (hkey id).2 heq
  have htweets : ∀ u, r'.versions (.tweets u) = r.versions (.tweets u) := fun u =>
    hgrown.versions _ (hother _ fun id => ⟨nofun, nofun⟩)
  have htweet : ∀ id, r'.versions (.tweet id) = r.versions (.tweet id) := fun id =>
    hgrown.versions _ (hother _ fun id => ⟨nofun, nofun⟩)
  exact
    { bounded := hgrown.bounded
      users := by
        rw [hgrown.versions _ (hother .users fun id => ⟨nofun, nofun⟩)]; exact h.users
      tweets := by
        intro u hu
        rw [hsame.users] at hu
        rw [htweets, hsame.published]
        exact h.tweets u hu
      owner := by
        intro u hu
        rw [hsame.users] at hu
        exact hgrown.floor_eq (hother _ fun id => ⟨nofun, nofun⟩) (h.owner u hu)
      noTweets := by
        intro u hu
        rw [hsame.users] at hu
        rw [htweets, hsame.published]
        exact h.noTweets u hu
      tweet := by
        intro u t ht
        rw [hsame.published] at ht
        rw [htweet]
        exact h.tweet u t ht
      noTweet := by
        intro id hid
        rw [hsame.ids] at hid
        rw [htweet]
        exact h.noTweet id hid }

end Kept

/-! ## One lemma for each call -/

section Wp

variable (miss : TwitterKey → StoreException String) {calls : List TwitterCall}
  {r : SessionRegister TwitterKey Json Int}

/-- `follow` writes to lists of users only. -/
theorem writes_follow (a b : User) : (follow a b).Writes FollowKey := by
  have haf : FollowKey (.following a.id) := ⟨a.id, Or.inl rfl⟩
  have hag : FollowKey (.followers a.id) := ⟨a.id, Or.inr rfl⟩
  refine Program.Writes.bind (Program.Writes.attempt (writes_get _ _)) fun res => ?_
  cases res with
  | error e => trivial
  | ok following =>
      refine Program.Writes.bind (writes_json _) fun list => ?_
      refine Program.Writes.bind (writes_json _) fun already => ?_
      cases already with
      | true => trivial
      | false =>
          refine Program.Writes.bind (writes_json _) fun count => ?_
          refine Program.Writes.bind (writes_json _) fun following => ?_
          refine Program.Writes.bind (writes_put haf _ _) fun _ => ?_
          refine Program.Writes.bind (Program.Writes.attempt (writes_get _ _)) fun res => ?_
          cases res with
          | error e => trivial
          | ok followers =>
              refine Program.Writes.bind (writes_json _) fun count => ?_
              refine Program.Writes.bind (writes_json _) fun followers => ?_
              exact writes_put hag _ _

/-- `publish_tweet` appends to the last version of the list, and writes the tweet's record. -/
theorem wp_publishTweet (h : Kept calls r) {u : User} (t : Tweet)
    (hu : u.id ∈ usersAdded calls) :
    (publishTweet u t).wp miss r fun _ r' => ∃ r₁, Program.Grown (fun _ => False) r r₁
      ∧ r' = (r₁.write u.id (.tweets u.id)
          (Json.longList "list" ((published u.id calls).map Tweet.id ++ [t.id]))).write u.id
            (.tweet t.id) (tweetDetails t) := by
  unfold publishTweet
  rw [Program.wp_bind, Program.wp_attempt, wp_get]
  refine ⟨fun hno => ?_, fun i v hread => ?_⟩
  · rw [h.tweets u.id hu, List.map_eq_nil_iff] at hno
    have hlen := congrArg List.length hno
    rw [List.length_inits] at hlen
    exact absurd hlen (Nat.succ_ne_zero _)
  · have hlast : i + 1 = (r.versions (.tweets u.id)).length :=
      (hread.eq_last (by rw [h.owner u.id hu]; exact Nat.le_max_right _ _)).1
    rw [h.tweets u.id hu, List.length_map, List.length_inits, List.length_map] at hlast
    have hi : i = (published u.id calls).length := Nat.succ.inj hlast
    obtain ⟨-, rfl⟩ := h.mayRead hu hread
    rw [hi, List.take_length]
    simp only [Program.andThen_ok, Program.wp_bind, wp_json, wp_put,
      Json.count_longList, Json.appendAt_longList, Option.elim_some]
    exact ⟨_, Program.grown_read h.bounded (hi ▸ hread), rfl⟩

/-- `add_user` writes an empty list of tweets last. -/
theorem wp_addUser (h : Kept calls r) (u : User) :
    (addUser u).wp miss r fun _ r' => ∃ r₁,
      Program.Grown (fun key => key = .users ∨ key = .username u.id ∨ FollowKey key) r r₁
      ∧ (∀ v ∈ r₁.versions .users, ∃ ids, v = Json.longList "list" ids)
      ∧ r' = r₁.write u.id (.tweets u.id) (Json.longList "list" []) := by
  unfold addUser
  rw [Program.wp_bind]
  refine Program.wp_mono miss (wp_getList miss Json.list_ne_count _ h.bounded ⟨[], rfl⟩ h.users) ?_
  rintro res r₀ ⟨_, rfl, ⟨ids, rfl⟩, hread⟩
  simp only [Program.andThen_ok, Program.wp_bind, wp_json, wp_put, setList_new,
    Json.count_longList, Json.appendAt_longList, Option.elim_some]
  have h0 : Program.Grown (fun key => key = .users ∨ key = .username u.id ∨ FollowKey key) r r₀ :=
    hread.mono fun _ hfalse => hfalse.elim
  have h1 := h0.trans (Program.grown_write h0.bounded defaultSession (Or.inl rfl)
    (Json.longList "list" (ids ++ [u.id])))
  have h2 := h1.trans (Program.grown_write h1.bounded defaultSession (Or.inr (Or.inl rfl))
    (.string u.username))
  have h3 := h2.trans (Program.grown_write h2.bounded u.id
    (Or.inr (Or.inr ⟨u.id, Or.inl rfl⟩)) (Json.longList "list" []))
  have h4 := h3.trans (Program.grown_write h3.bounded u.id
    (Or.inr (Or.inr ⟨u.id, Or.inr rfl⟩)) (Json.longList "list" []))
  refine ⟨_, h4, fun v hv => ?_, rfl⟩
  simp only [ne_eq, reduceCtorEq, not_false_eq_true, SessionRegister.write_versions_ne,
    SessionRegister.write_versions_self, hread.versions, List.mem_append, List.mem_singleton] at hv
  exact hv.elim (h.users v) fun heq => ⟨_, heq⟩

/-- The loop of a timeline finds a tweet by each id that has a record, and skips the others. -/
theorem wp_allTweets (s : Int) (ids : List Int) (hr : r.Bounded)
    (hrecords : ∀ id, r.versions (.tweet id) = []
      ∨ ∃ t, t.id = id ∧ r.versions (.tweet id) = [tweetDetails t]) :
    (allTweets s (ids.map .long)).wp miss r fun res r' =>
      res = .ok (ids.filterMap (record r)) ∧ Program.Grown (fun _ => False) r r' := by
  induction ids generalizing r with
  | nil => exact ⟨rfl, .refl hr⟩
  | cons id ids ih =>
      rw [List.map_cons, allTweets, Program.wp_bind, Program.wp_attempt, Program.wp_bind, wp_json]
      show (get (.tweet (Json.int32 id)) s).wp miss r _
      rw [wp_get]
      refine ⟨fun hno => ?_, fun i v hread => ?_⟩
      · -- no record
        have hskip : record r id = none := by rw [record, hno]; rfl
        rw [List.filterMap_cons_none hskip]
        exact ih hr hrecords
      · obtain ⟨t, hid, hversions⟩ := (hrecords (Json.int32 id)).resolve_left fun hno => by
          rw [SessionRegister.MayRead, hno] at hread
          cases hread.1
        obtain rfl : v = tweetDetails t := by
          have hmem := List.mem_of_getElem? hread.1
          rw [hversions] at hmem
          exact List.mem_singleton.mp hmem
        have hgrown : Program.Grown (fun _ => False) r (r.read s (.tweet (Json.int32 id)) i) :=
          Program.grown_read hr hread
        have hobj := tweetObj_tweetDetails t
        rw [hid, Json.int32_int32] at hobj
        have hfound : record r id = some t.readBack := by
          rw [record, hversions]
          exact hobj
        have hasInteger : (Json.long id).asInteger = some (Json.int32 id) := rfl
        rw [List.filterMap_cons_some hfound]
        simp only [Program.andThen_ok, Program.wp_bind, wp_json, hasInteger, hobj, Option.elim_some]
        refine Program.wp_mono miss (ih hgrown.bounded hrecords) ?_
        rintro res r' ⟨rfl, hgrown'⟩
        exact ⟨rfl, hgrown.trans hgrown'⟩

/-- **A timeline is what is found of the tweets published up to some version of the list**, one
that the session's floor allows, and lifts the floor to. -/
theorem wp_timeline (h : Kept calls r) (sort : TweetSort) {u : Int} (s : Int)
    (hu : u ∈ usersAdded calls) :
    (timeline sort u s).wp miss r fun res r' => Program.Grown (fun _ => False) r r'
      ∧ ∃ i, i ≤ (published u calls).length ∧ r.floor s (.tweets u) ≤ i + 1
        ∧ i + 1 ≤ r'.floor s (.tweets u)
        ∧ res = .ok (sort.sort ((((published u calls).take i).map Tweet.id).filterMap
          (record r))) := by
  unfold timeline
  rw [Program.wp_bind, Program.wp_attempt, wp_get]
  refine ⟨fun hno => ?_, fun i v hread => ?_⟩
  · rw [h.tweets u hu, List.map_eq_nil_iff] at hno
    have hlen := congrArg List.length hno
    rw [List.length_inits] at hlen
    exact absurd hlen (Nat.succ_ne_zero _)
  · obtain ⟨hi, rfl⟩ := h.mayRead hu hread
    have hgrown : Program.Grown (fun _ => False) r (r.read s (.tweets u) i) :=
      Program.grown_read h.bounded hread
    simp only [Program.andThen_ok, Program.wp_bind, wp_json, Json.elements_longList,
      Option.elim_some]
    refine Program.wp_mono miss (wp_allTweets miss s _ hgrown.bounded h.records) ?_
    rintro res r' ⟨rfl, hgrown'⟩
    refine ⟨hgrown.trans hgrown', i, hi, hread.2, ?_, rfl⟩
    have hfloor := hgrown'.floor s (.tweets u)
    rwa [SessionRegister.read_floor_self] at hfloor

end Wp

/-! ## Any run -/

section Run

variable {calls : List TwitterCall} {r : SessionRegister TwitterKey Json Int}

theorem inits_concat {α : Type} (l : List α) (a : α) :
    (l ++ [a]).inits = l.inits ++ [l ++ [a]] := by
  rw [List.inits_append]
  rfl

theorem Kept.addUser (h : Kept calls r) {call : TwitterCall} {u : User}
    (hop : call.op = .addUser u) (hnew : u.id ∉ usersAdded calls)
    {r₁ : SessionRegister TwitterKey Json Int}
    (hgrown : Program.Grown (fun key => key = .users ∨ key = .username u.id ∨ FollowKey key) r r₁)
    (husers : ∀ v ∈ r₁.versions .users, ∃ ids, v = Json.longList "list" ids) :
    Kept (calls ++ [call]) (r₁.write u.id (.tweets u.id) (Json.longList "list" [])) := by
  have hadded : usersAdded (calls ++ [call]) = usersAdded calls ++ [u.id] := by
    rw [usersAdded_concat, hop]; rfl
  have hquiet : call.op.tweetPublished = none := by rw [hop]; rfl
  have hpub : ∀ v, published v (calls ++ [call]) = published v calls := fun v =>
    published_of_none v calls hquiet
  have hids : tweetIds (calls ++ [call]) = tweetIds calls := tweetIds_of_none calls hquiet
  have hlists : ∀ v, ¬ (TwitterKey.tweets v = .users ∨ TwitterKey.tweets v = .username u.id
      ∨ FollowKey (.tweets v)) := by
    rintro v (heq | heq | ⟨id, heq | heq⟩) <;> cases heq
  have htweets : ∀ v, r₁.versions (.tweets v) = r.versions (.tweets v) := fun v =>
    hgrown.versions _ (hlists v)
  have htweet : ∀ id, r₁.versions (.tweet id) = r.versions (.tweet id) := fun id =>
    hgrown.versions _ (by rintro (heq | heq | ⟨id, heq | heq⟩) <;> cases heq)
  have hother : ∀ v, v ≠ u.id → (r₁.write u.id (.tweets u.id) (Json.longList "list" [])).versions
      (.tweets v) = r.versions (.tweets v) := fun v hv => by
    rw [SessionRegister.write_versions_ne _ _ _ fun heq => hv (TwitterKey.tweets.inj heq), htweets]
  have hold : ∀ v ∈ usersAdded (calls ++ [call]), v ≠ u.id → v ∈ usersAdded calls := by
    intro v hv hne
    rw [hadded, List.mem_append, List.mem_singleton] at hv
    exact hv.resolve_right hne
  exact
    { bounded := hgrown.bounded.write _ _ _
      users := by
        rwa [SessionRegister.write_versions_ne _ _ _ (by nofun)]
      tweets := by
        intro v hv
        rw [hpub]
        by_cases heq : v = u.id
        · subst heq
          rw [SessionRegister.write_versions_self, htweets, (h.noTweets _ hnew).1,
            (h.noTweets _ hnew).2]
          rfl
        · rw [hother v heq]
          exact h.tweets v (hold v hv heq)
      owner := by
        intro v hv
        by_cases heq : v = u.id
        · subst heq
          rw [SessionRegister.write_versions_self, SessionRegister.write_floor_self,
            List.length_append, List.length_singleton]
        · rw [hother v heq, ← htweets v, SessionRegister.write_floor_other _ _ _ _ heq]
          exact hgrown.floor_eq (hlists v) (h.owner v (hold v hv heq))
      noTweets := by
        intro v hv
        rw [hadded, List.mem_append, List.mem_singleton, not_or] at hv
        rw [hother v hv.2, hpub]
        exact h.noTweets v hv.1
      tweet := by
        intro v t ht
        rw [hpub] at ht
        rw [SessionRegister.write_versions_ne _ _ _ (by nofun), htweet]
        exact h.tweet v t ht
      noTweet := by
        intro id hid
        rw [hids] at hid
        rw [SessionRegister.write_versions_ne _ _ _ (by nofun), htweet]
        exact h.noTweet id hid }

theorem Kept.publishTweet (h : Kept calls r) {call : TwitterCall} {u : User} {t : Tweet}
    (hop : call.op = .publishTweet u t) (hu : u.id ∈ usersAdded calls)
    (hnew : t.id ∉ tweetIds calls) {r₁ : SessionRegister TwitterKey Json Int}
    (hgrown : Program.Grown (fun _ => False) r r₁) :
    Kept (calls ++ [call]) ((r₁.write u.id (.tweets u.id)
      (Json.longList "list" ((published u.id calls).map Tweet.id ++ [t.id]))).write u.id
        (.tweet t.id) (tweetDetails t)) := by
  have hadded : usersAdded (calls ++ [call]) = usersAdded calls :=
    usersAdded_of_none calls (by rw [hop]; rfl)
  have htold : call.op.tweetPublished = some (u.id, t) := by rw [hop]; rfl
  have hpub : published u.id (calls ++ [call]) = published u.id calls ++ [t] :=
    published_of_self calls htold
  have hpub_ne : ∀ v, v ≠ u.id → published v (calls ++ [call]) = published v calls :=
    fun v hv => published_of_other calls htold hv
  have hids : tweetIds (calls ++ [call]) = tweetIds calls ++ [t.id] := by
    rw [tweetIds_concat, hop]; rfl
  -- what the two writes leave under each key
  have hself : ((r₁.write u.id (.tweets u.id) (Json.longList "list"
      ((published u.id calls).map Tweet.id ++ [t.id]))).write u.id (.tweet t.id)
        (tweetDetails t)).versions (.tweets u.id) = r.versions (.tweets u.id)
          ++ [Json.longList "list" ((published u.id calls).map Tweet.id ++ [t.id])] := by
    rw [SessionRegister.write_versions_ne _ _ _ (by nofun), SessionRegister.write_versions_self,
      hgrown.versions _ id]
  have hother : ∀ key, key ≠ .tweets u.id → key ≠ .tweet t.id →
      ((r₁.write u.id (.tweets u.id) (Json.longList "list"
        ((published u.id calls).map Tweet.id ++ [t.id]))).write u.id (.tweet t.id)
          (tweetDetails t)).versions key = r.versions key := by
    intro key hlist hrecord
    rw [SessionRegister.write_versions_ne _ _ _ hrecord,
      SessionRegister.write_versions_ne _ _ _ hlist, hgrown.versions _ id]
  have htweets : ∀ v, v ≠ u.id → _ = r.versions (.tweets v) := fun v hv =>
    hother (.tweets v) (fun heq => hv (TwitterKey.tweets.inj heq)) nofun
  have htweet : ∀ id, id ≠ t.id → _ = r.versions (.tweet id) := fun id hid =>
    hother (.tweet id) nofun fun heq => hid (TwitterKey.tweet.inj heq)
  exact
    { bounded := (hgrown.bounded.write _ _ _).write _ _ _
      users := by
        rw [hother .users nofun nofun]; exact h.users
      tweets := by
        intro v hv
        rw [hadded] at hv
        by_cases heq : v = u.id
        · subst heq
          rw [hself, h.tweets _ hu, hpub, List.map_append, List.map_singleton, inits_concat,
            List.map_append, List.map_singleton]
        · rw [htweets v heq, hpub_ne v heq]
          exact h.tweets v hv
      owner := by
        intro v hv
        rw [hadded] at hv
        by_cases heq : v = u.id
        · subst heq
          rw [hself, SessionRegister.write_floor_ne _ _ _ _ (by nofun),
            SessionRegister.write_floor_self, hgrown.versions _ id, List.length_append,
            List.length_singleton]
        · rw [htweets v heq, ← hgrown.versions (.tweets v) id,
            SessionRegister.write_floor_other _ _ _ _ heq,
            SessionRegister.write_floor_other _ _ _ _ heq]
          exact hgrown.floor_eq id (h.owner v hv)
      noTweets := by
        intro v hv
        rw [hadded] at hv
        have hne : v ≠ u.id := fun heq => hv (heq ▸ hu)
        rw [htweets v hne, hpub_ne v hne]
        exact h.noTweets v hv
      tweet := by
        intro v t' ht'
        have hold : t' ∈ published v calls → _ = [tweetDetails t'] := fun hmem => by
          have hne : t'.id ≠ t.id := fun heq => hnew (heq ▸ mem_tweetIds hmem)
          exact (htweet t'.id hne).trans (h.tweet v t' hmem)
        by_cases heq : v = u.id
        · subst heq
          rw [hpub, List.mem_append, List.mem_singleton] at ht'
          rcases ht' with hmem | rfl
          · exact hold hmem
          · rw [SessionRegister.write_versions_self,
              SessionRegister.write_versions_ne _ _ _ (by nofun),
              hgrown.versions _ id, h.noTweet _ hnew]
            rfl
        · rw [hpub_ne v heq] at ht'
          exact hold ht'
      noTweet := by
        intro id hid
        rw [hids, List.mem_append, List.mem_singleton, not_or] at hid
        rw [htweet id hid.2]
        exact h.noTweet id hid.1 }

theorem same_of_none {call : TwitterCall} (hadd : call.op.userAdded = none)
    (hpub : call.op.tweetPublished = none) : Same calls call where
  users := usersAdded_of_none calls hadd
  published u := published_of_none u calls hpub
  ids := tweetIds_of_none calls hpub

/-- **Each call keeps the lists of tweets and their records.** -/
theorem kept_step (miss : TwitterKey → StoreException String) (sort : TweetSort)
    (h : Kept calls r) (call : TwitterCall)
    (hnew : ∀ u, call.op.userAdded = some u → u ∉ usersAdded calls)
    (hused : ∀ u ∈ call.op.usersUsed, u ∈ usersAdded calls)
    (htweet : ∀ id, (call.op.tweetPublished.map fun published => published.2.id) = some id →
      id ∉ tweetIds calls) :
    (call.op.program sort).wp miss r fun _ r' => Kept (calls ++ [call]) r' := by
  -- a call that writes to lists of users at most
  have other : ∀ {p : App TwitterKey Unit}, p.Writes FollowKey → call.op.userAdded = none →
      call.op.tweetPublished = none → p.wp miss r fun _ r' => Kept (calls ++ [call]) r' := by
    intro p hp hadd hpub
    exact Program.wp_mono miss (hp.wp miss h.bounded) fun _ _ hgrown =>
      h.of_grown (same_of_none hadd hpub) hgrown
  have getter : ∀ {p : App TwitterKey (List Tweet)}, p.Writes FollowKey →
      (p >>= fun _ => pure () : App TwitterKey Unit).Writes FollowKey := fun hp =>
    hp.bind fun _ => trivial
  cases hop : call.op with
  | addUser u =>
      refine Program.wp_mono miss (wp_addUser miss h u) ?_
      rintro res r' ⟨r₁, hgrown, husers, rfl⟩
      exact h.addUser hop (hnew u.id (by rw [hop]; rfl)) hgrown husers
  | follow a b => exact other (writes_follow a b) (by rw [hop]; rfl) (by rw [hop]; rfl)
  | publishTweet u t =>
      have hu : u.id ∈ usersAdded calls := hused u.id (by rw [hop]; exact List.mem_cons_self)
      refine Program.wp_mono miss (wp_publishTweet miss h t hu) ?_
      rintro res r' ⟨r₁, hgrown, rfl⟩
      exact h.publishTweet hop hu (htweet t.id (by rw [hop]; rfl)) hgrown
  | getNewsfeed u =>
      exact other (getter (writes_getNewsfeed sort u)) (by rw [hop]; rfl) (by rw [hop]; rfl)
  | getTimeline u s =>
      exact other (getter (writes_timeline sort s u.id)) (by rw [hop]; rfl) (by rw [hop]; rfl)
  | getAllTimeline s =>
      exact other (getter (writes_getAllTimeline sort s)) (by rw [hop]; rfl) (by rw [hop]; rfl)

/-- **Every run keeps them**, on any store. -/
theorem kept_after (sort : TweetSort) (sel : ReadResponseSelector)
    (hadded : (usersAdded calls).Nodup) (hused : AddedFirst calls)
    (htweets : (tweetIds calls).Nodup) {done : List TwitterCall} (hpre : done <+: calls) :
    Kept done (view TwitterKey.name (after sort sel done)) ∧ Reachable (after sort sel done) := by
  have hnil : Kept [] (view TwitterKey.name (after sort sel [])) ∧ Reachable (after sort sel []) :=
    ⟨kept_nil, .init sel⟩
  refine ListOrder.prefix_induction (I := fun done =>
    Kept done (view TwitterKey.name (after sort sel done)) ∧ Reachable (after sort sel done))
    hnil ?_ hpre
  intro done call hpre ih
  obtain ⟨hkept, hreach⟩ := ih
  rw [after_concat]
  exact run_wp TwitterKey.name_injective _ call.draws hreach
    (kept_step _ sort hkept call
      (fun u hu => ListOrder.not_mem_of_nodup_filterMap hadded hpre hu)
      (hused done call hpre)
      (fun id hid => ListOrder.not_mem_of_nodup_filterMap htweets hpre hid))

/-- The floor of a session under a user's list, after calls. -/
theorem floor_mono (sort : TweetSort) (sel : ReadResponseSelector)
    (hadded : (usersAdded calls).Nodup) (hused : AddedFirst calls)
    (htweets : (tweetIds calls).Nodup) (s : Int) (key : TwitterKey) {done done' : List TwitterCall}
    (hpre : done <+: done') (hpre' : done' <+: calls) :
    (view TwitterKey.name (after sort sel done)).floor s key
      ≤ (view TwitterKey.name (after sort sel done')).floor s key := by
  induction done' using List.reverseRecOn with
  | nil => rw [List.prefix_nil.mp hpre]
  | append_singleton done' call ih =>
      rcases List.prefix_concat_iff.mp hpre with heq | hold
      · rw [heq]
      · have hdone := (List.prefix_append done' [call]).trans hpre'
        refine Nat.le_trans (ih hold hdone) ?_
        obtain ⟨hkept, hreach⟩ := kept_after sort sel hadded hused htweets hdone
        rw [after_concat]
        have hgrown := run_wp TwitterKey.name_injective (call.op.program sort) call.draws hreach
          ((Program.writes_univ _).wp _ hkept.bounded)
        exact hgrown.1.floor s key

end Run

/-! ## What a session is shown -/

/-- What `get_timeline(u, s)` returns, as `call` calls it after other calls. -/
def shown (sort : TweetSort) (sel : ReadResponseSelector) (done : List TwitterCall)
    (call : TwitterCall) (u : User) (s : Int) : Except AppException (List Tweet) :=
  (App.run TwitterKey.name (getTimeline sort u s) call.draws (after sort sel done)).1

section Shown

variable {calls : List TwitterCall} (sort : TweetSort) (sel : ReadResponseSelector)

/-- A user that was not added yet has an empty timeline. -/
theorem wp_timeline_none (miss : TwitterKey → StoreException String)
    {r : SessionRegister TwitterKey Json Int} (h : Kept calls r) {u : Int} (s : Int)
    (hu : u ∉ usersAdded calls) :
    (timeline sort u s).wp miss r fun res _ => res = .ok [] := by
  have hnone := (h.noTweets u hu).1
  unfold timeline
  rw [Program.wp_bind, Program.wp_attempt, wp_get]
  refine ⟨fun _ => rfl, fun i v hread => ?_⟩
  have hmem := List.mem_of_getElem? hread.1
  rw [hnone] at hmem
  exact (List.not_mem_nil hmem).elim

variable (hadded : (usersAdded calls).Nodup) (hused : AddedFirst calls)
  (htweets : (tweetIds calls).Nodup)
include hadded hused htweets

/-- **A timeline shown is what is found of what was published up to some version**, which the
floor before allows and the floor after keeps. -/
theorem shown_eq {done : List TwitterCall} {call : TwitterCall} (hpre : done ++ [call] <+: calls)
    {u : User} {s : Int} (hop : call.op = .getTimeline u s) (hu : u.id ∈ usersAdded done) :
    ∃ i, i ≤ (published u.id done).length
      ∧ (view TwitterKey.name (after sort sel done)).floor s (.tweets u.id) ≤ i + 1
      ∧ i + 1 ≤ (view TwitterKey.name (after sort sel (done ++ [call]))).floor s (.tweets u.id)
      ∧ shown sort sel done call u s = .ok (sort.sort ((((published u.id done).take i).map
        Tweet.id).filterMap (record (view TwitterKey.name (after sort sel done))))) := by
  obtain ⟨hkept, hreach⟩ := kept_after sort sel hadded hused htweets
    ((List.prefix_append done [call]).trans hpre)
  obtain ⟨⟨-, i, hi, hbefore, hafter, hres⟩, -⟩ := run_wp TwitterKey.name_injective
    (getTimeline sort u s) call.draws hreach (wp_timeline _ hkept sort s hu)
  refine ⟨i, hi, hbefore, ?_, hres⟩
  rw [after_concat, hop]
  show i + 1 ≤ (view TwitterKey.name (App.run TwitterKey.name
    (getTimeline sort u s >>= fun _ => pure () : App TwitterKey Unit) call.draws _).2).floor s _
  rw [run_discard]
  exact hafter

theorem shown_none {done : List TwitterCall} {call : TwitterCall}
    (hpre : done ++ [call] <+: calls) {u : User} {s : Int} (hu : u.id ∉ usersAdded done) :
    shown sort sel done call u s = .ok [] := by
  obtain ⟨hkept, hreach⟩ := kept_after sort sel hadded hused htweets
    ((List.prefix_append done [call]).trans hpre)
  exact (run_wp TwitterKey.name_injective (getTimeline sort u s) call.draws hreach
    (wp_timeline_none sort _ hkept s hu)).1

end Shown

theorem pairwise_prefix_inits {α : Type} (l : List α) : l.inits.Pairwise (· <+: ·) := by
  induction l using List.reverseRecOn with
  | nil => exact List.pairwise_singleton _ _
  | append_singleton l a ih =>
      rw [inits_concat, List.pairwise_append]
      refine ⟨ih, List.pairwise_singleton _ _, fun x hx y hy => ?_⟩
      rw [List.mem_singleton.mp hy]
      exact ((List.mem_inits x l).mp hx).trans (List.prefix_append l [a])

/-- **Tweets are never lost, nor forgotten.** The last version of a user's list has all that
the user published, and each version begins with those before it. What a session was shown
in a timeline it is shown in every later one. -/
theorem timelines_kept (sort : TweetSort) (sel : ReadResponseSelector) (calls : List TwitterCall)
    (hadded : (usersAdded calls).Nodup) (hused : AddedFirst calls)
    (htweets : (tweetIds calls).Nodup) :
    (∀ u ∈ usersAdded calls,
        (∃ v list, (versions TwitterKey.name (after sort sel calls) (.tweets u)).getLast? = some v
          ∧ v.elements "list" = some list ∧ v.count = some (list.length : Int)
          ∧ list = (published u calls).map fun t => .long t.id)
        ∧ (versions TwitterKey.name (after sort sel calls) (.tweets u)).Pairwise fun v v' =>
          ∃ list list', v.elements "list" = some list ∧ v'.elements "list" = some list'
            ∧ list <+: list')
      ∧ ∀ u u' : User, u'.id = u.id → ∀ s done call done' call', done ++ [call] <+: done' →
        done' ++ [call'] <+: calls → call.op = .getTimeline u s → call'.op = .getTimeline u' s →
        ∃ tweets tweets', shown sort sel done call u s = .ok tweets
          ∧ shown sort sel done' call' u' s = .ok tweets' ∧ ∀ t ∈ tweets, t ∈ tweets' := by
  constructor
  · intro u hu
    obtain ⟨hkept, hreach⟩ := kept_after sort sel hadded hused htweets List.prefix_rfl
    rw [versions_eq hreach, hkept.tweets u hu]
    constructor
    · refine ⟨Json.longList "list" ((published u calls).map Tweet.id), _, ?_,
        Json.elements_longList _, ?_, List.map_map⟩
      · rw [List.getLast?_map, List.getLast?_eq_getElem?, List.length_inits, Nat.add_sub_cancel,
          List.getElem?_eq_getElem (by rw [List.length_inits]; exact Nat.lt_succ_self _),
          List.getElem_inits, List.take_length]
        rfl
      · rw [Json.count_longList, List.length_map, List.length_map, List.length_map]
    · rw [List.pairwise_map]
      refine (pairwise_prefix_inits _).imp fun {ids ids'} hids => ?_
      exact ⟨_, _, Json.elements_longList ids, Json.elements_longList ids', hids.map _⟩
  · intro u u' hid s done call done' call' hpre hpre' hop hop'
    have hdone : done ++ [call] <+: calls :=
      hpre.trans ((List.prefix_append _ _).trans hpre')
    by_cases hu : u.id ∈ usersAdded done
    · have hu' : u'.id ∈ usersAdded done' := by
        obtain ⟨rest, rfl⟩ := (List.prefix_append done [call]).trans hpre
        rw [hid]
        unfold usersAdded
        rw [List.filterMap_append]
        exact List.mem_append_left _ hu
      obtain ⟨i, hi, -, hafter, hres⟩ :=
        shown_eq sort sel hadded hused htweets hdone hop hu
      obtain ⟨i', -, hbefore, -, hres'⟩ :=
        shown_eq sort sel hadded hused htweets hpre' hop' hu'
      have hfloor := floor_mono sort sel hadded hused htweets s (.tweets u.id) hpre
        ((List.prefix_append _ _).trans hpre')
      rw [hid] at hbefore hres'
      have hii : i ≤ i' := by omega
      obtain ⟨hkept, -⟩ := kept_after sort sel hadded hused htweets
        ((List.prefix_append done [call]).trans hdone)
      obtain ⟨hkept', -⟩ := kept_after sort sel hadded hused htweets
        ((List.prefix_append done' [call']).trans hpre')
      refine ⟨_, _, hres, hres', fun t ht => ?_⟩
      rw [(sort.perm _).mem_iff, List.mem_filterMap] at ht ⊢
      obtain ⟨id, hid, ht⟩ := ht
      have htake : (published u.id done).take i <+: (published u.id done').take i' := by
        have hpub := published_mono u.id ((List.prefix_append done [call]).trans hpre)
        rw [List.prefix_iff_eq_take.mp hpub, List.take_take]
        exact (List.take_prefix_take_left (Nat.le_trans (Nat.min_le_left _ _) hii))
      exact ⟨id, (htake.map Tweet.id).subset hid,
        hkept.record_mono hkept' ((List.prefix_append done [call]).trans hpre) ht⟩
    · obtain ⟨shown', hshown'⟩ : ∃ tweets', shown sort sel done' call' u' s = .ok tweets' := by
        by_cases hu' : u'.id ∈ usersAdded done'
        · obtain ⟨i', -, -, -, hres'⟩ :=
            shown_eq sort sel hadded hused htweets hpre' hop' hu'
          exact ⟨_, hres'⟩
        · exact ⟨[], shown_none sort sel hadded hused htweets hpre' hu'⟩
      exact ⟨[], shown', shown_none sort sel hadded hused htweets hdone hu, hshown',
        fun t ht => (List.not_mem_nil ht).elim⟩

/-- User 1 tweets twice; session 2 looks at its timeline after each tweet. -/
def twoTweets : List TwitterCall :=
  let u : User := ⟨1, "a"⟩
  [.addUser u, .publishTweet u ⟨1, "hello", 1, 0, 0⟩, .getTimeline u 2,
    .publishTweet u ⟨2, "world", 2, 0, 0⟩, .getTimeline u 2].map fun op => ⟨op, fun _ => zeroDraws⟩

theorem addedFirst_twoTweets : AddedFirst twoTweets := by
  show AddedFirst ([] ++ [_] ++ [_] ++ [_] ++ [_] ++ [_])
  rw [addedFirst_concat, addedFirst_concat, addedFirst_concat, addedFirst_concat,
    addedFirst_concat]
  exact ⟨⟨⟨⟨⟨addedFirst_nil, by decide⟩, by decide⟩, by decide⟩, by decide⟩, by decide⟩

theorem timelines_kept_twoTweets :
    (∀ u ∈ usersAdded twoTweets,
        (∃ v list,
          (versions TwitterKey.name (after .stable .causal twoTweets) (.tweets u)).getLast? = some v
            ∧ v.elements "list" = some list ∧ v.count = some (list.length : Int)
            ∧ list = (published u twoTweets).map fun t => .long t.id)
        ∧ (versions TwitterKey.name (after .stable .causal twoTweets) (.tweets u)).Pairwise
          fun v v' => ∃ list list', v.elements "list" = some list
            ∧ v'.elements "list" = some list' ∧ list <+: list')
      ∧ ∀ u u' : User, u'.id = u.id → ∀ s done call done' call', done ++ [call] <+: done' →
        done' ++ [call'] <+: twoTweets → call.op = .getTimeline u s →
        call'.op = .getTimeline u' s →
        ∃ tweets tweets', shown .stable .causal done call u s = .ok tweets
          ∧ shown .stable .causal done' call' u' s = .ok tweets' ∧ ∀ t ∈ tweets, t ∈ tweets' :=
  timelines_kept .stable .causal twoTweets (by decide) addedFirst_twoTweets (by decide)

end Twitter

end MockDB
