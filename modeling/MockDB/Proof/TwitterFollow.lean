import MockDB.Lib.ListOrder
import MockDB.Proof.TwitterRun

/-!
# Following and followers

`follow` writes whom `a` follows, then reads `b`'s followers, and stores the longer list of
them as `a`'s followers. A user who follows itself gets that right. As soon as somebody
follows another user the two lists disagree, and no later call brings them together: in what
`a` stores under its followers either `a` is twice, or `b`'s followers are without `a`.

Whether `a` follows `b` already is read off with `as_integer`. So a user whose id is no `int`
may follow itself twice, and is on its list twice for ever; and once it follows itself, it is
taken to follow the user whose id is what `as_integer` makes of its own.
-/

namespace MockDB

namespace TwitterState

/-- Who was added has both lists. -/
def Listed (st : TwitterState) (added : List Int) : Prop :=
  ∀ u ∈ added, (∃ following, st.following u = some following)
    ∧ ∃ followers, st.followers u = some followers

/-- Nobody follows anybody else, and those of `selfs` follow themselves. -/
def Alone (st : TwitterState) (added : List Int) (selfs : Int → Prop) : Prop :=
  ∀ u ∈ added, ∃ us, st.following u = some us ∧ st.followers u = some us
    ∧ ((selfs u ∧ us = [u]) ∨ (¬ selfs u ∧ us = []))

/-- Somebody is on a user's list twice. -/
def Repeats (st : TwitterState) (added : List Int) : Prop :=
  ∃ a ∈ added, ∃ following, st.following a = some following ∧ ¬ following.Nodup

/-- `a` follows `b`, but one of the followers' lists does not have that right. -/
def Lopsided (st : TwitterState) (added : List Int) : Prop :=
  ∃ a ∈ added, ∃ b ∈ added, a ≠ b ∧ ∃ following followersA followersB,
    st.following a = some following ∧ st.followers a = some followersA
      ∧ st.followers b = some followersB ∧ b ∈ following
      ∧ (¬ followersA.Nodup ∨ a ∉ followersB)

section Step

variable {st : TwitterState} {added : List Int}

/-- Calls that leave both lists as they are. -/
theorem follow_of_mem {a b : Int} {following : List Int} (ha : st.following a = some following)
    (hmem : b ∈ following.map Json.int32) : st.follow a b = st := by
  unfold TwitterState.follow
  rw [ha]
  exact if_pos hmem

/-- What a new follow stores. -/
theorem follow_of_not_mem {a b : Int} {following followers : List Int}
    (ha : st.following a = some following) (hb : st.followers b = some followers)
    (hmem : b ∉ following.map Json.int32) :
    (st.follow a b).following = Function.update st.following a (some (following ++ [b]))
      ∧ (st.follow a b).followers = Function.update st.followers a (some (followers ++ [a])) := by
  unfold TwitterState.follow
  rw [ha]
  dsimp only
  rw [if_neg hmem]
  simp [setFollowers, hb]

theorem following_publishTweet (u : Int) (t : Tweet) :
    (st.publishTweet u t).following = st.following := by
  unfold publishTweet; cases st.tweets u <;> rfl

theorem followers_publishTweet (u : Int) (t : Tweet) :
    (st.publishTweet u t).followers = st.followers := by
  unfold publishTweet; cases st.tweets u <;> rfl

theorem following_addUser_ne {u : User} {a : Int} (h : a ≠ u.id) :
    (st.addUser u).following a = st.following a := Function.update_of_ne h _ _

theorem followers_addUser_ne {u : User} {a : Int} (h : a ≠ u.id) :
    (st.addUser u).followers a = st.followers a := Function.update_of_ne h _ _

/-! ## Adding a user -/

theorem Listed.addUser (h : st.Listed added) (u : User) :
    (st.addUser u).Listed (added ++ [u.id]) := by
  intro v hv
  by_cases heq : v = u.id
  · subst heq
    exact ⟨⟨[], Function.update_self ..⟩, [], Function.update_self ..⟩
  · have hold : v ∈ added := (List.mem_append.mp hv).resolve_right fun h => heq (by simpa using h)
    rw [following_addUser_ne heq, followers_addUser_ne heq]
    exact h v hold

theorem Alone.addUser {selfs : Int → Prop} (h : st.Alone added selfs) {u : User}
    (hnew : ¬ selfs u.id) : (st.addUser u).Alone (added ++ [u.id]) selfs := by
  intro v hv
  by_cases heq : v = u.id
  · subst heq
    exact ⟨[], Function.update_self .., Function.update_self .., Or.inr ⟨hnew, rfl⟩⟩
  · have hold : v ∈ added := (List.mem_append.mp hv).resolve_right fun h => heq (by simpa using h)
    rw [following_addUser_ne heq, followers_addUser_ne heq]
    exact h v hold

theorem Repeats.addUser (h : st.Repeats added) {u : User} (hnew : u.id ∉ added) :
    (st.addUser u).Repeats (added ++ [u.id]) := by
  obtain ⟨a, ha, following, hf, hdup⟩ := h
  refine ⟨a, List.mem_append_left _ ha, following, ?_, hdup⟩
  rw [following_addUser_ne fun heq => hnew (heq ▸ ha)]
  exact hf

theorem Lopsided.addUser (h : st.Lopsided added) {u : User} (hnew : u.id ∉ added) :
    (st.addUser u).Lopsided (added ++ [u.id]) := by
  obtain ⟨a, ha, b, hb, hne, following, followersA, followersB, hfa, hga, hgb, hmem, hbad⟩ := h
  have hau : a ≠ u.id := fun heq => hnew (heq ▸ ha)
  have hbu : b ≠ u.id := fun heq => hnew (heq ▸ hb)
  refine ⟨a, List.mem_append_left _ ha, b, List.mem_append_left _ hb, hne, following, followersA,
    followersB, ?_, ?_, ?_, hmem, hbad⟩
  · rw [following_addUser_ne hau]; exact hfa
  · rw [followers_addUser_ne hau]; exact hga
  · rw [followers_addUser_ne hbu]; exact hgb

/-! ## Following -/

theorem Listed.follow (h : st.Listed added) {a b : Int} (ha : a ∈ added) (hb : b ∈ added) :
    (st.follow a b).Listed added := by
  obtain ⟨following, hf⟩ := (h a ha).1
  obtain ⟨followers, hg⟩ := (h b hb).2
  by_cases hmem : b ∈ following.map Json.int32
  · rw [follow_of_mem hf hmem]; exact h
  · obtain ⟨hf', hg'⟩ := follow_of_not_mem hf hg hmem
    intro u hu
    rw [hf', hg']
    by_cases heq : u = a
    · subst heq
      exact ⟨⟨_, Function.update_self ..⟩, _, Function.update_self ..⟩
    · rw [Function.update_of_ne heq, Function.update_of_ne heq]; exact h u hu

/-- A user who follows itself for the first time is on both its lists. -/
theorem Alone.follow_self {selfs : Int → Prop} (h : st.Alone added selfs) {a : Int}
    (ha : a ∈ added) (hnew : ¬ selfs a) :
    (st.follow a a).Alone added fun u => selfs u ∨ u = a := by
  obtain ⟨us, hf, hg, hus⟩ := h a ha
  obtain rfl : us = [] := (hus.resolve_left fun hself => hnew hself.1).2
  obtain ⟨hf', hg'⟩ := follow_of_not_mem hf hg List.not_mem_nil
  intro u hu
  rw [hf', hg']
  by_cases heq : u = a
  · subst heq
    exact ⟨[u], Function.update_self .., Function.update_self .., Or.inl ⟨Or.inr rfl, rfl⟩⟩
  · rw [Function.update_of_ne heq, Function.update_of_ne heq]
    obtain ⟨us, hfu, hgu, hus⟩ := h u hu
    refine ⟨us, hfu, hgu, hus.imp (And.imp_left Or.inl) (And.imp_left fun hnot hor => ?_)⟩
    exact hor.elim hnot heq

/-- A user who follows itself is taken to follow whom `as_integer` makes of it. -/
theorem Alone.follow_int32 {selfs : Int → Prop} (h : st.Alone added selfs) {a : Int}
    (ha : a ∈ added) (hself : selfs a) : st.follow a (Json.int32 a) = st := by
  obtain ⟨us, hf, -, hus⟩ := h a ha
  obtain rfl : us = [a] := (hus.resolve_right fun hnot => hnot.1 hself).2
  exact follow_of_mem hf List.mem_cons_self

/-- Whom a user follows only ever grows. -/
theorem following_follow_prefix {a b u : Int} {following : List Int}
    (h : st.following u = some following) :
    ∃ more, (st.follow a b).following u = some (following ++ more) := by
  have hsame : ∃ more, st.following u = some (following ++ more) :=
    ⟨[], by rw [List.append_nil, h]⟩
  unfold TwitterState.follow
  cases ha : st.following a with
  | none => exact hsame
  | some ids =>
      dsimp only
      by_cases hmem : b ∈ ids.map Json.int32
      · rw [if_pos hmem]; exact hsame
      · rw [if_neg hmem]
        have hlists : ∀ st' : TwitterState, (st'.setFollowers a b).following = st'.following := by
          intro st'
          unfold setFollowers
          cases st'.followers b <;> rfl
        rw [hlists]
        dsimp only
        by_cases hu : u = a
        · subst hu
          obtain rfl := Option.some.inj (ha.symm.trans h)
          exact ⟨[b], Function.update_self ..⟩
        · rw [Function.update_of_ne hu]; exact hsame

theorem Repeats.follow (h : st.Repeats added) (a b : Int) : (st.follow a b).Repeats added := by
  obtain ⟨u, hu, following, hf, hdup⟩ := h
  obtain ⟨more, hmore⟩ := following_follow_prefix (a := a) (b := b) hf
  exact ⟨u, hu, _, hmore, fun hnodup => hdup (List.nodup_append.mp hnodup).1⟩

/-- A new follow of somebody else leaves the lists lopsided. -/
theorem lopsided_follow {a b : Int} (ha : a ∈ added) (hb : b ∈ added) (hne : a ≠ b)
    {following followers : List Int} (hf : st.following a = some following)
    (hg : st.followers b = some followers) (hmem : b ∉ following.map Json.int32) :
    (st.follow a b).Lopsided added := by
  obtain ⟨hf', hg'⟩ := follow_of_not_mem hf hg hmem
  refine ⟨a, ha, b, hb, hne, following ++ [b], followers ++ [a], followers, ?_, ?_, ?_, ?_, ?_⟩
  · rw [hf', Function.update_self]
  · rw [hg', Function.update_self]
  · rw [hg', Function.update_of_ne (Ne.symm hne), hg]
  · exact List.mem_append_right _ List.mem_cons_self
  · by_cases hmem' : a ∈ followers
    · left
      intro hnodup
      exact (ListOrder.nodup_concat.mp hnodup).1 hmem'
    · exact Or.inr hmem'

/-- A user who follows itself mends nothing: it only adds itself, to its own lists. -/
theorem Lopsided.follow_self (h : st.Lopsided added) {c : Int} {following followers : List Int}
    (hf : st.following c = some following) (hg : st.followers c = some followers)
    (hnew : c ∉ following.map Json.int32) : (st.follow c c).Lopsided added := by
  obtain ⟨hf', hg'⟩ := follow_of_not_mem hf hg hnew
  obtain ⟨a, ha, b, hb, hne, followingA, followersA, followersB, hfa, hga, hgb, hmem, hbad⟩ := h
  have key : ∃ followingA' followersA', (st.follow c c).following a = some followingA'
      ∧ (st.follow c c).followers a = some followersA' ∧ b ∈ followingA'
      ∧ (¬ followersA.Nodup → ¬ followersA'.Nodup) := by
    rw [hf', hg']
    by_cases hac : a = c
    · subst hac
      rw [hf] at hfa
      rw [hg] at hga
      rw [← Option.some.inj hfa] at hmem
      rw [← Option.some.inj hga]
      exact ⟨_, _, Function.update_self .., Function.update_self .., List.mem_append_left _ hmem,
        fun hdup hnodup => hdup (ListOrder.nodup_concat.mp hnodup).2⟩
    · rw [Function.update_of_ne hac, Function.update_of_ne hac]
      exact ⟨_, _, hfa, hga, hmem, fun hdup => hdup⟩
  obtain ⟨followingA', followersA', hfa', hga', hmem', hdup⟩ := key
  by_cases hbc : b = c
  · subst hbc
    rw [hg] at hgb
    have heq := Option.some.inj hgb
    subst heq
    refine ⟨a, ha, b, hb, hne, _, _, _, hfa', hga', (by rw [hg', Function.update_self]), hmem', ?_⟩
    rcases hbad with hnodup | hnot
    · exact Or.inl (hdup hnodup)
    · right
      rw [List.mem_append, List.mem_singleton]
      exact fun hor => hor.elim hnot hne
  · refine ⟨a, ha, b, hb, hne, _, _, _, hfa', hga', (by rw [hg', Function.update_of_ne hbc, hgb]),
      hmem', ?_⟩
    exact hbad.imp_left hdup

theorem Lopsided.follow (h : st.Lopsided added) (hl : st.Listed added) {a b : Int}
    (ha : a ∈ added) (hb : b ∈ added) : (st.follow a b).Lopsided added := by
  obtain ⟨following, hf⟩ := (hl a ha).1
  obtain ⟨followers, hg⟩ := (hl b hb).2
  by_cases hmem : b ∈ following.map Json.int32
  · rw [follow_of_mem hf hmem]; exact h
  · by_cases hne : a = b
    · subst hne
      exact h.follow_self hf hg hmem
    · exact lopsided_follow ha hb hne hf hg hmem

/-- Somebody else is followed for the first time, or a user once more by itself. -/
theorem Alone.follow_other {selfs : Int → Prop} (h : st.Alone added selfs) {a b : Int}
    (ha : a ∈ added) (hb : b ∈ added) (hother : ¬ selfs a → b ≠ a)
    (hnew : selfs a → b ≠ Json.int32 a) :
    (st.follow a b).Repeats added ∨ (st.follow a b).Lopsided added := by
  obtain ⟨us, hf, -, hus⟩ := h a ha
  obtain ⟨us', -, hg, -⟩ := h b hb
  have hmem : b ∉ us.map Json.int32 := by
    rcases hus with ⟨hself, rfl⟩ | ⟨-, rfl⟩
    · exact fun hmem => hnew hself (List.mem_singleton.mp hmem)
    · exact List.not_mem_nil
  by_cases hne : a = b
  · subst hne
    left
    obtain ⟨hself, rfl⟩ := hus.resolve_right fun hnot => hother hnot.1 rfl
    refine ⟨a, ha, [a] ++ [a], ?_, fun hnodup => ?_⟩
    · rw [(follow_of_not_mem hf hg hmem).1, Function.update_self]
    · exact (ListOrder.nodup_concat.mp hnodup).1 List.mem_cons_self
  · exact Or.inr (lopsided_follow ha hb hne hf hg hmem)

/-- What leaves both kinds of lists as they are keeps them as they should be, or are not. -/
theorem follows_congr (added : List Int) {st' : TwitterState} (hf : st'.following = st.following)
    (hg : st'.followers = st.followers) : (st'.Listed added ↔ st.Listed added)
      ∧ (∀ selfs, st'.Alone added selfs ↔ st.Alone added selfs)
      ∧ (st'.Repeats added ↔ st.Repeats added) ∧ (st'.Lopsided added ↔ st.Lopsided added) := by
  unfold Listed Alone Repeats Lopsided
  rw [hf, hg]
  exact ⟨Iff.rfl, fun _ => Iff.rfl, Iff.rfl, Iff.rfl⟩

end Step

end TwitterState

namespace Twitter

open App TwitterState

/-- Who has followed whom by these calls. -/
def followed (calls : List TwitterCall) : List (Int × Int) :=
  calls.filterMap fun call => call.op.followed

/-- A `follow` after other calls is of a user by itself, or, where it follows itself already, of
the user that `as_integer` makes of it. -/
def OfSelf (done : List TwitterCall) (call : TwitterCall) : Prop :=
  ∀ a b, call.op = .follow a b → ((a.id, a.id) ∉ followed done → b.id = a.id)
    ∧ ((a.id, a.id) ∈ followed done → b.id = Json.int32 a.id)

/-- Every `follow` of these calls is of a user by itself. -/
def OnlySelf (calls : List TwitterCall) : Prop :=
  ∀ done call, done ++ [call] <+: calls → OfSelf done call

/-- The users that were added. -/
def usersAdded (calls : List TwitterCall) : List Int :=
  calls.filterMap fun call => call.op.userAdded

/-- Each user is added before a call uses it. -/
def AddedFirst (calls : List TwitterCall) : Prop :=
  ∀ done call, done ++ [call] <+: calls → ∀ u ∈ call.op.usersUsed, u ∈ usersAdded done

theorem onlySelf_concat {calls : List TwitterCall} {call : TwitterCall} :
    OnlySelf (calls ++ [call]) ↔ OnlySelf calls ∧ OfSelf calls call :=
  ListOrder.forall_step_concat

theorem followed_concat {calls : List TwitterCall} {call : TwitterCall} :
    followed (calls ++ [call]) = followed calls ++ call.op.followed.toList := by
  unfold followed
  rw [List.filterMap_append]
  congr 1

theorem followed_of_none {calls : List TwitterCall} {call : TwitterCall}
    (h : call.op.followed = none) : followed (calls ++ [call]) = followed calls := by
  rw [followed_concat, h, Option.toList_none, List.append_nil]

theorem usersAdded_concat (calls : List TwitterCall) (call : TwitterCall) :
    usersAdded (calls ++ [call]) = usersAdded calls ++ call.op.userAdded.toList := by
  unfold usersAdded
  rw [List.filterMap_append]
  cases h : call.op.userAdded <;> simp [h]

theorem usersAdded_of_none (calls : List TwitterCall) {call : TwitterCall}
    (h : call.op.userAdded = none) : usersAdded (calls ++ [call]) = usersAdded calls := by
  rw [usersAdded_concat, h, Option.toList_none, List.append_nil]

theorem addedFirst_nil : AddedFirst [] := fun _ _ h => absurd h.length_le (by simp)

theorem addedFirst_concat {calls : List TwitterCall} {call : TwitterCall} :
    AddedFirst (calls ++ [call])
      ↔ AddedFirst calls ∧ ∀ u ∈ call.op.usersUsed, u ∈ usersAdded calls :=
  ListOrder.forall_step_concat

/-- What a call uses was added. -/
theorem AddedFirst.mem_usersAdded {calls : List TwitterCall} {call : TwitterCall}
    (h : AddedFirst calls) (hcall : call ∈ calls) {u : Int} (hu : u ∈ call.op.usersUsed) :
    u ∈ usersAdded calls := by
  obtain ⟨done, rest, rfl⟩ := List.append_of_mem hcall
  have hdone : done ++ [call] <+: done ++ call :: rest := ⟨rest, by simp⟩
  unfold usersAdded
  rw [List.filterMap_append]
  exact List.mem_append_left _ (h done call hdone u hu)

theorem AddedFirst.followed_added {calls : List TwitterCall} (h : AddedFirst calls) {a b : Int}
    (hab : (a, b) ∈ followed calls) : a ∈ usersAdded calls ∧ b ∈ usersAdded calls := by
  obtain ⟨call, hcall, hop⟩ := List.mem_filterMap.mp hab
  have hused : call.op.usersUsed = [a, b] := by
    cases hc : call.op with
    | follow a' b' =>
        rw [hc] at hop
        obtain ⟨rfl, rfl⟩ := Prod.mk.inj (Option.some.inj hop)
        rfl
    | _ => rw [hc] at hop; exact nomatch hop
  have hmem : ∀ u ∈ [a, b], u ∈ usersAdded calls := fun u hu =>
    h.mem_usersAdded hcall (hused ▸ hu)
  exact ⟨hmem a List.mem_cons_self, hmem b (List.mem_cons_of_mem _ List.mem_cons_self)⟩

/-- What calls have made of the lists so far. -/
structure Follows (calls : List TwitterCall) (st : TwitterState) : Prop where
  listed : st.Listed (usersAdded calls)
  alone : OnlySelf calls → st.Alone (usersAdded calls) fun u => (u, u) ∈ followed calls
  broken : ¬ OnlySelf calls → st.Repeats (usersAdded calls) ∨ st.Lopsided (usersAdded calls)

/-- A call that adds nobody and leaves the lists as they are. -/
theorem Follows.of_same {calls : List TwitterCall} {call : TwitterCall} {st st' : TwitterState}
    (h : Follows calls st) (hadd : call.op.userAdded = none) (hfollow : call.op.followed = none)
    (hf : st'.following = st.following) (hg : st'.followers = st.followers) :
    Follows (calls ++ [call]) st' := by
  have hadded := usersAdded_of_none calls hadd
  have hself : OfSelf calls call := fun a b heq => by
    rw [heq] at hfollow
    cases hfollow
  have honly : OnlySelf (calls ++ [call]) ↔ OnlySelf calls :=
    onlySelf_concat.trans (and_iff_left hself)
  obtain ⟨hl, ha, hrep, hlop⟩ := follows_congr (usersAdded calls) hf hg
  refine ⟨?_, fun hs => ?_, fun hs => ?_⟩
  · rw [hadded, hl]; exact h.listed
  · rw [hadded, followed_of_none hfollow, ha]; exact h.alone (honly.mp hs)
  · rw [hadded, hrep, hlop]; exact h.broken fun hs' => hs (honly.mpr hs')

theorem Follows.addUser {calls : List TwitterCall} {call : TwitterCall} {st : TwitterState}
    (h : Follows calls st) (hfirst : AddedFirst calls) {u : User} (hop : call.op = .addUser u)
    (hnew : u.id ∉ usersAdded calls) : Follows (calls ++ [call]) (st.addUser u) := by
  have hadded : usersAdded (calls ++ [call]) = usersAdded calls ++ [u.id] := by
    rw [usersAdded_concat, hop]; rfl
  have honly : OnlySelf (calls ++ [call]) ↔ OnlySelf calls :=
    onlySelf_concat.trans (and_iff_left fun a b heq => nomatch hop.symm.trans heq)
  refine ⟨?_, fun hs => ?_, fun hs => ?_⟩
  · rw [hadded]; exact h.listed.addUser u
  · rw [hadded, followed_of_none (by rw [hop]; rfl)]
    exact (h.alone (honly.mp hs)).addUser fun hself => hnew (hfirst.followed_added hself).1
  · rw [hadded]
    exact (h.broken fun hs' => hs (honly.mpr hs')).imp (·.addUser hnew) (·.addUser hnew)

theorem Follows.follow {calls : List TwitterCall} {call : TwitterCall} {st : TwitterState}
    (h : Follows calls st) {a b : User} (hop : call.op = .follow a b)
    (ha : a.id ∈ usersAdded calls) (hb : b.id ∈ usersAdded calls) :
    Follows (calls ++ [call]) (st.follow a.id b.id) := by
  have hadded : usersAdded (calls ++ [call]) = usersAdded calls :=
    usersAdded_of_none calls (by rw [hop]; rfl)
  have hfollowed : ∀ u, (u, u) ∈ followed (calls ++ [call])
      ↔ (u, u) ∈ followed calls ∨ u = a.id ∧ u = b.id := by
    intro u
    rw [followed_concat, hop, List.mem_append]
    exact or_congr_right (List.mem_singleton.trans Prod.mk_inj)
  have hself : OfSelf calls call ↔ ((a.id, a.id) ∉ followed calls → b.id = a.id)
      ∧ ((a.id, a.id) ∈ followed calls → b.id = Json.int32 a.id) := by
    refine ⟨fun hs => hs a b hop, fun heq a' b' hab => ?_⟩
    obtain ⟨rfl, rfl⟩ := TwitterOp.follow.inj (hop.symm.trans hab)
    exact heq
  have honly : OnlySelf (calls ++ [call]) ↔ OnlySelf calls ∧ _ :=
    onlySelf_concat.trans (and_congr_right fun _ => hself)
  refine ⟨?_, fun hs => ?_, fun hs => ?_⟩
  · rw [hadded]; exact h.listed.follow ha hb
  · rw [hadded]
    obtain ⟨hcalls, hnew, hagain⟩ := honly.mp hs
    simp only [hfollowed]
    by_cases hmem : (a.id, a.id) ∈ followed calls
    · -- refused, whether `a` is meant or another user
      have hb' := hagain hmem
      have hsame : ∀ u, (u, u) ∈ followed calls ∨ u = a.id ∧ u = b.id ↔ (u, u) ∈ followed calls :=
        fun u => or_iff_left_of_imp fun heq => heq.1 ▸ hmem
      rw [hb', (h.alone hcalls).follow_int32 ha hmem, ← hb']
      simp only [hsame]
      exact h.alone hcalls
    · rw [hnew hmem]
      simp only [and_self]
      exact (h.alone hcalls).follow_self ha hmem
  · rw [hadded]
    by_cases hcalls : OnlySelf calls
    · refine (h.alone hcalls).follow_other ha hb (fun hmem heq => ?_) fun hmem heq => ?_
      · exact hs (honly.mpr ⟨hcalls, fun _ => heq, fun hin => absurd hin hmem⟩)
      · exact hs (honly.mpr ⟨hcalls, fun hnot => absurd hmem hnot, fun _ => heq⟩)
    · exact (h.broken hcalls).imp (·.follow a.id b.id) (·.follow h.listed ha hb)

/-- **Each call** leaves the lists as the calls so far make them. -/
theorem follows_step {calls : List TwitterCall} {st : TwitterState} (h : Follows calls st)
    (hfirst : AddedFirst calls) (call : TwitterCall)
    (hnew : ∀ u, call.op.userAdded = some u → u ∉ usersAdded calls)
    (hused : ∀ u ∈ call.op.usersUsed, u ∈ usersAdded calls) :
    Follows (calls ++ [call]) (st.step call.op) := by
  cases hop : call.op with
  | addUser u => exact h.addUser hfirst hop (hnew u.id (by rw [hop]; rfl))
  | follow a b =>
      refine h.follow hop (hused a.id ?_) (hused b.id ?_)
      · rw [hop]; exact List.mem_cons_self
      · rw [hop]; exact List.mem_cons_of_mem _ List.mem_cons_self
  | publishTweet u t =>
      exact h.of_same (by rw [hop]; rfl) (by rw [hop]; rfl)
        (following_publishTweet u.id t) (followers_publishTweet u.id t)
  | getNewsfeed u => exact h.of_same (by rw [hop]; rfl) (by rw [hop]; rfl) rfl rfl
  | getTimeline u s => exact h.of_same (by rw [hop]; rfl) (by rw [hop]; rfl) rfl rfl
  | getAllTimeline s => exact h.of_same (by rw [hop]; rfl) (by rw [hop]; rfl) rfl rfl

theorem follows_state {calls : List TwitterCall} (hadded : (usersAdded calls).Nodup)
    (hused : AddedFirst calls) : Follows calls (state calls) := by
  have hnil : Follows [] (state []) :=
    ⟨fun u hu => (List.not_mem_nil hu).elim, fun _ u hu => (List.not_mem_nil hu).elim,
      fun hs => (hs fun done call hpre => absurd hpre.length_le (by simp)).elim⟩
  refine ListOrder.prefix_induction (I := fun done => Follows done (state done)) hnil ?_
    List.prefix_rfl
  intro done call hpre ih
  show Follows (done ++ [call]) (state (done ++ [call]))
  rw [state_concat]
  refine follows_step ih (fun done' call' hpre' => hused done' call' ?_) call
    (fun u hu => ListOrder.not_mem_of_nodup_filterMap hadded hpre hu) (hused done call hpre)
  exact hpre'.trans ((List.prefix_append done [call]).trans hpre)

/-! ## The stored lists -/

/-- The ids in the list stored under a key. -/
def storedIds (w : World String Json) (key : TwitterKey) : Option (List Int) :=
  (contents TwitterKey.name w key).bind fun value =>
    (value.elements "list").bind fun list => list.mapM Json.integer

/-- `b` is in the list under `user:a:following` just if `a` is in the one under
`user:b:followers`, and neither list has a user twice. -/
def FollowsAgree (w : World String Json) (a b : Int) : Prop :=
  ∃ following followers, storedIds w (.following a) = some following
    ∧ storedIds w (.followers b) = some followers
    ∧ (b ∈ following ↔ a ∈ followers) ∧ following.Nodup ∧ followers.Nodup

theorem storedIds_after (sort : TweetSort) (calls : List TwitterCall) {key : TwitterKey}
    (ids : Option (List Int)) (hkey : (state calls).toMap key = ids.map (Json.longList "list")) :
    storedIds (after sort .linearizable calls) key = ids := by
  unfold storedIds
  rw [(contents_after sort calls).2, hkey]
  cases ids with
  | none => rfl
  | some ids =>
      rw [Option.map_some, Option.bind_some, Json.elements_longList, Option.bind_some,
        Json.mapM_integer]

/-- **Following and followers agree, for all users, just if nobody follows anybody else**: each
follow is of a user by itself, or, if that user follows itself already, of the user that
`as_integer` makes of its id, which is itself unless the id is no `int`. -/
theorem followsAgree_iff (sort : TweetSort) (calls : List TwitterCall)
    (hadded : (usersAdded calls).Nodup) (hused : AddedFirst calls) :
    (∀ a ∈ usersAdded calls, ∀ b ∈ usersAdded calls,
        FollowsAgree (after sort .linearizable calls) a b)
      ↔ ∀ done call, done ++ [call] <+: calls → ∀ a b, call.op = .follow a b →
        ((a.id, a.id) ∉ followed done → b.id = a.id)
          ∧ ((a.id, a.id) ∈ followed done → b.id = Json.int32 a.id) := by
  have hfollows := follows_state hadded hused
  have hfollowing : ∀ a, storedIds (after sort .linearizable calls) (.following a)
      = (state calls).following a := fun a => storedIds_after sort calls _ rfl
  have hfollowers : ∀ b, storedIds (after sort .linearizable calls) (.followers b)
      = (state calls).followers b := fun b => storedIds_after sort calls _ rfl
  constructor
  · intro hagree
    by_contra hself
    rcases hfollows.broken hself with ⟨a, ha, following, hf, hdup⟩
      | ⟨a, ha, b, hb, hne, following, followersA, followersB, hf, hga, hgb, hmem, hbad⟩
    · obtain ⟨following', -, hf', -, -, hnodup, -⟩ := hagree a ha a ha
      rw [hfollowing, hf] at hf'
      exact hdup (Option.some.inj hf' ▸ hnodup)
    · rcases hbad with hdup | hnot
      · obtain ⟨_, followers, -, hg, -, -, hnodup⟩ := hagree a ha a ha
        rw [hfollowers, hga] at hg
        exact hdup (Option.some.inj hg ▸ hnodup)
      · obtain ⟨following', followers', hf', hg', hiff, -, -⟩ := hagree a ha b hb
        rw [hfollowing, hf] at hf'
        rw [hfollowers, hgb] at hg'
        exact hnot (Option.some.inj hg' ▸ hiff.mp (Option.some.inj hf' ▸ hmem))
  · intro hself a ha b hb
    have halone : ∀ u ∈ usersAdded calls, ∃ us, (state calls).following u = some us
        ∧ (state calls).followers u = some us ∧ (us = [] ∨ us = [u]) := by
      intro u hu
      obtain ⟨us, hf, hg, hus⟩ := hfollows.alone hself u hu
      exact ⟨us, hf, hg, hus.symm.imp And.right And.right⟩
    obtain ⟨us, hf, hg, hus⟩ := halone a ha
    obtain ⟨us', hf', hg', hus'⟩ := halone b hb
    refine ⟨us, us', (hfollowing a).trans hf, (hfollowers b).trans hg', ?_, ?_, ?_⟩
    · by_cases heq : a = b
      · subst heq
        rw [hf] at hf'
        rw [Option.some.inj hf']
      · refine iff_of_false (fun hmem => ?_) fun hmem => ?_
        · rcases hus with rfl | rfl
          · exact List.not_mem_nil hmem
          · exact heq (List.mem_singleton.mp hmem).symm
        · rcases hus' with rfl | rfl
          · exact List.not_mem_nil hmem
          · exact heq (List.mem_singleton.mp hmem)
    · rcases hus with rfl | rfl
      · exact List.nodup_nil
      · exact List.nodup_singleton a
    · rcases hus' with rfl | rfl
      · exact List.nodup_nil
      · exact List.nodup_singleton b

/-- User 1 follows user 2. -/
def oneFollow : List TwitterCall :=
  [.addUser ⟨1, "a"⟩, .addUser ⟨2, "b"⟩, .follow ⟨1, "a"⟩ ⟨2, "b"⟩].map fun op =>
    ⟨op, fun _ => zeroDraws⟩

theorem addedFirst_oneFollow : AddedFirst oneFollow := by
  show AddedFirst ([] ++ [_] ++ [_] ++ [_])
  rw [addedFirst_concat, addedFirst_concat, addedFirst_concat]
  exact ⟨⟨⟨addedFirst_nil, by decide⟩, by decide⟩, by decide⟩

/-- Afterwards user 2 is followed by user 1, but has no followers. -/
theorem followsAgree_violated :
    (usersAdded oneFollow).Nodup ∧ AddedFirst oneFollow
      ∧ ¬ FollowsAgree (after .stable .linearizable oneFollow) 1 2 := by
  refine ⟨by decide, addedFirst_oneFollow, ?_⟩
  rintro ⟨following, followers, hf, hg, hiff, -, -⟩
  rw [storedIds_after .stable oneFollow (some [2]) rfl] at hf
  rw [storedIds_after .stable oneFollow (some []) rfl] at hg
  rw [← Option.some.inj hf, ← Option.some.inj hg] at hiff
  exact List.not_mem_nil (hiff.mp List.mem_cons_self)

theorem followsAgree_iff_oneFollow :
    (∀ a ∈ usersAdded oneFollow, ∀ b ∈ usersAdded oneFollow,
        FollowsAgree (after .stable .linearizable oneFollow) a b)
      ↔ ∀ done call, done ++ [call] <+: oneFollow → ∀ a b, call.op = .follow a b →
        ((a.id, a.id) ∉ followed done → b.id = a.id)
          ∧ ((a.id, a.id) ∈ followed done → b.id = Json.int32 a.id) :=
  followsAgree_iff .stable oneFollow (by decide) addedFirst_oneFollow

end Twitter

end MockDB
