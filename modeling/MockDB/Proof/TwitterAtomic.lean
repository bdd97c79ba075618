import MockDB.Proof.TwitterFollow

/-!
# Follows that are refused

`follow` gives up where one of the users was never added, and where there is nothing new to
store. It looks for the lists of the user who follows before it stores anything, but for
those of the other user only after: whom nobody added is followed all the same. And it looks
for the other user among what `as_integer` makes of the ids on the list, so one whose id is no
`int` is never found there and is followed again.
-/

namespace MockDB

namespace TwitterState

/-- The users that have lists are those that were added. -/
structure ListsOf (st : TwitterState) (added : List Int) : Prop where
  following : ∀ u, st.following u = none ↔ u ∉ added
  followers : ∀ u, st.followers u = none ↔ u ∉ added

section Step

variable {st : TwitterState} {added : List Int}

theorem listsOf_empty : empty.ListsOf [] :=
  ⟨fun _ => iff_of_true rfl List.not_mem_nil, fun _ => iff_of_true rfl List.not_mem_nil⟩

/-- A list stored for a user that is added is one more list. -/
theorem update_concat_eq_none_iff {lists : Int → Option (List Int)}
    (h : ∀ u, lists u = none ↔ u ∉ added) (a : Int) (ids : List Int) (u : Int) :
    Function.update lists a (some ids) u = none ↔ u ∉ added ++ [a] := by
  rw [List.mem_append, List.mem_singleton, not_or]
  by_cases heq : u = a
  · subst heq
    rw [Function.update_self]
    exact iff_of_false (Option.some_ne_none ids) fun hnot => hnot.2 rfl
  · rw [Function.update_of_ne heq, h u]
    exact (and_iff_left heq).symm

theorem ListsOf.addUser (h : st.ListsOf added) (u : User) :
    (st.addUser u).ListsOf (added ++ [u.id]) :=
  ⟨update_concat_eq_none_iff h.following u.id [], update_concat_eq_none_iff h.followers u.id []⟩

/-- A list stored for a user that has one makes no new users. -/
theorem update_eq_none_iff {lists : Int → Option (List Int)} {a : Int} (ha : lists a ≠ none)
    (ids : List Int) (u : Int) :
    Function.update lists a (some ids) u = none ↔ lists u = none := by
  by_cases heq : u = a
  · subst heq
    rw [Function.update_self]
    exact iff_of_false (Option.some_ne_none ids) ha
  · rw [Function.update_of_ne heq]

theorem ListsOf.follow (h : st.ListsOf added) (a b : Int) : (st.follow a b).ListsOf added := by
  unfold TwitterState.follow
  cases hf : st.following a with
  | none => exact h
  | some following =>
      have hfa : st.following a ≠ none := by rw [hf]; exact Option.some_ne_none _
      have hga : st.followers a ≠ none := by
        rwa [ne_eq, h.followers a, ← h.following a]
      dsimp only
      by_cases hmem : b ∈ following.map Json.int32
      · rw [if_pos hmem]; exact h
      · rw [if_neg hmem]
        unfold setFollowers
        dsimp only
        cases hg : st.followers b with
        | none =>
            exact ⟨fun u => (update_eq_none_iff hfa _ u).trans (h.following u), h.followers⟩
        | some followers =>
            exact ⟨fun u => (update_eq_none_iff hfa _ u).trans (h.following u),
              fun u => (update_eq_none_iff hga _ u).trans (h.followers u)⟩

theorem ListsOf.publishTweet (h : st.ListsOf added) (u : Int) (t : Tweet) :
    (st.publishTweet u t).ListsOf added :=
  ⟨fun v => by rw [following_publishTweet, h.following v],
    fun v => by rw [followers_publishTweet, h.followers v]⟩

theorem ListsOf.step (h : st.ListsOf added) (op : TwitterOp) :
    (st.step op).ListsOf (added ++ op.userAdded.toList) := by
  cases op with
  | addUser u => exact h.addUser u
  | follow a b => exact (List.append_nil added).symm ▸ h.follow a.id b.id
  | publishTweet u t => exact (List.append_nil added).symm ▸ h.publishTweet u.id t
  | getNewsfeed u => exact (List.append_nil added).symm ▸ h
  | getTimeline u s => exact (List.append_nil added).symm ▸ h
  | getAllTimeline s => exact (List.append_nil added).symm ▸ h

/-- A follow changes nothing just if there are no lists to add to, or nobody new to add. -/
theorem following_follow_iff (a b : Int) :
    (st.follow a b).following a = st.following a
      ↔ st.following a = none ∨ ∃ ids, st.following a = some ids ∧ b ∈ ids.map Json.int32 := by
  unfold follow
  cases hf : st.following a with
  | none => exact iff_of_true hf (Or.inl rfl)
  | some following =>
      dsimp only
      by_cases hmem : b ∈ following.map Json.int32
      · rw [if_pos hmem]
        exact iff_of_true hf (Or.inr ⟨following, rfl, hmem⟩)
      · rw [if_neg hmem]
        refine iff_of_false (fun heq => ?_) ?_
        · -- the new list is longer
          unfold setFollowers at heq
          cases hg : st.followers b <;> simp [hg] at heq
        · rintro (hnone | ⟨ids, hids, hin⟩)
          · exact Option.some_ne_none _ hnone
          · exact hmem (Option.some.inj hids ▸ hin)

theorem follow_of_none {a : Int} (hf : st.following a = none) (b : Int) : st.follow a b = st := by
  simp [follow, hf]

end Step

end TwitterState

namespace Twitter

open App TwitterState

theorem listsOf_state (calls : List TwitterCall) : (state calls).ListsOf (usersAdded calls) := by
  induction calls using List.reverseRecOn with
  | nil => exact listsOf_empty
  | append_singleton calls call ih =>
      rw [state_concat, usersAdded_concat]
      exact ih.step call.op

/-- User `b` is in the list of whom `a` follows. -/
def AlreadyFollows (w : World String Json) (a b : Int) : Prop :=
  ∃ following, storedIds w (.following a) = some following ∧ b ∈ following

/-- Some id in the list of whom `a` follows comes back from `as_integer` as `b`. -/
def FoundFollowing (w : World String Json) (a b : Int) : Prop :=
  ∃ following, storedIds w (.following a) = some following ∧ b ∈ following.map Json.int32

/-- Whom a user follows is found, if its id is an `int`. -/
theorem AlreadyFollows.found {w : World String Json} {a b : Int} (h : AlreadyFollows w a b)
    (hb : Json.IsInt b) : FoundFollowing w a b := by
  obtain ⟨following, hf, hmem⟩ := h
  exact ⟨following, hf, List.mem_map.mpr ⟨b, hmem, Json.int32_eq hb⟩⟩

section After

variable (sort : TweetSort) (calls : List TwitterCall) (a b : User) (draws : Nat → Draws)

theorem foundFollowing_iff : FoundFollowing (after sort .linearizable calls) a.id b.id
    ↔ ∃ following, (state calls).following a.id = some following
      ∧ b.id ∈ following.map Json.int32 := by
  unfold FoundFollowing
  rw [storedIds_after sort calls _ rfl]

/-- What a follow stores is what the list of whom `a` follows shows. -/
theorem latest_follow_iff :
    (App.run TwitterKey.name (follow a b) draws (after sort .linearizable calls)).2.latest
        = (after sort .linearizable calls).latest
      ↔ (state calls).following a.id = none
        ∨ ∃ following, (state calls).following a.id = some following
          ∧ b.id ∈ following.map Json.int32 := by
  obtain ⟨hstrong, hcontents⟩ := contents_after sort calls
  have hrun := (run_onMap TwitterKey.name_injective (follow a b) draws hstrong).2.1
  rw [hcontents, onMap_follow] at hrun
  rw [run_latest_iff _ _ hstrong, hrun, hcontents, ← following_follow_iff]
  constructor
  · intro heq
    have hlist := congrFun heq (.following a.id)
    exact Option.map_injective (fun _ _ => Json.longList_inj.mp) hlist
  · intro heq
    rcases (following_follow_iff a.id b.id).mp heq with hnone | ⟨ids, hids, hmem⟩
    · rw [follow_of_none hnone]
    · rw [follow_of_mem hids hmem]

/-- **A follow that is refused leaves every value just if it is refused before it stores**: it
changes the store where `a` was added, `b` never was or is followed already, and the list of
whom `a` follows does not come back from `as_integer` with `b`. -/
theorem follow_refused_iff :
    ((a.id ∉ usersAdded calls ∨ b.id ∉ usersAdded calls
          ∨ AlreadyFollows (after sort .linearizable calls) a.id b.id) →
        (App.run TwitterKey.name (follow a b) draws (after sort .linearizable calls)).2.latest
          = (after sort .linearizable calls).latest)
      ↔ (a.id ∈ usersAdded calls →
        (b.id ∉ usersAdded calls ∨ AlreadyFollows (after sort .linearizable calls) a.id b.id) →
        FoundFollowing (after sort .linearizable calls) a.id b.id) := by
  rw [latest_follow_iff, (listsOf_state calls).following, foundFollowing_iff]
  constructor
  · intro h ha hb
    exact (h (Or.inr hb)).resolve_left fun hno => hno ha
  · intro h hrefused
    by_cases ha : a.id ∈ usersAdded calls
    · exact Or.inr (h ha (hrefused.resolve_left fun hno => hno ha))
    · exact Or.inl ha

end After

/-- User 1 is added, and nobody else. -/
def onlyOne : List TwitterCall := [⟨.addUser ⟨1, "a"⟩, fun _ => zeroDraws⟩]

/-- Nobody added user 2, yet to follow it stores a list. -/
theorem follow_refused_violated :
    ¬ ((1 ∉ usersAdded onlyOne ∨ 2 ∉ usersAdded onlyOne
          ∨ AlreadyFollows (after .stable .linearizable onlyOne) 1 2) →
        (App.run TwitterKey.name (follow ⟨1, "a"⟩ ⟨2, "b"⟩) (fun _ => zeroDraws)
            (after .stable .linearizable onlyOne)).2.latest
          = (after .stable .linearizable onlyOne).latest) := by
  intro h
  have hadded : 2 ∉ usersAdded onlyOne := by decide
  have hfollowing : (state onlyOne).following 1 = some [] := rfl
  rcases (latest_follow_iff ..).mp (h (Or.inr (Or.inl hadded))) with hnone | ⟨ids, hids, hmem⟩
  · exact Option.some_ne_none _ (hfollowing.symm.trans hnone)
  · rw [← Option.some.inj (hfollowing.symm.trans hids)] at hmem
    exact List.not_mem_nil hmem

end Twitter

end MockDB
