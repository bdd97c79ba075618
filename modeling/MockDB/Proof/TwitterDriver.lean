import MockDB.Applications.Drivers
import MockDB.Proof.RejectedPost
import MockDB.Proof.TwitterServed
import Mathlib.Data.List.Sort

/-!
# Twitter's driver

The driver counts a violation when a timeline has more tweets than the newsfeed of a follower. It
is after tweets that were seen and are missing from a later newsfeed. But it does not look at
which of the two came first, and a newsfeed that is older has fewer tweets on any store.
-/

namespace MockDB

open App Interleaving

namespace RunTwitter

open Twitter TwitterState

/-- How many tweets are on the timelines of the users on a list. -/
def countAll (st : TwitterState) (us : List Int) : Nat :=
  (us.map fun u => (st.tweetsOf (Json.int32 u)).length).sum

/-- How many tweets a call returns, and what it leaves. -/
def count : TwitterOp → TwitterState → Nat × TwitterState
  | .getNewsfeed u, st => (countAll st ((st.following u.id).getD []), st)
  | .getTimeline u _, st => ((st.tweetsOf u.id).length, st)
  | .getAllTimeline _, st => (countAll st (st.users.getD []), st)
  | op, st => (0, st.step op)

theorem length_timelines (sort : TweetSort) (st : TwitterState) (us : List Int) :
    (st.timelines sort us).length = countAll st us := by
  simp [TwitterState.timelines, countAll, List.length_flatMap]

theorem count_eq (sort : TweetSort) (op : TwitterOp) (st : TwitterState) :
    count op st = ((st.serve sort op).1.length, (st.serve sort op).2) := by
  cases op with
  | addUser u => rfl
  | follow a b => rfl
  | publishTweet u t => rfl
  | getNewsfeed u => rw [serve, sort.length_sort, length_timelines]; rfl
  | getTimeline u s => rw [serve, sort.length_sort]; rfl
  | getAllTimeline s => rw [serve, length_timelines]; rfl

/-- A tweet is published after the newsfeed was read and before the timeline is. -/
def PublishedBetween (order : List (Nat × TwitterOp)) : Prop :=
  ∃ k < order.length, ∃ j < k, ∃ i < j, order[i]? = some (2, .getNewsfeed b)
    ∧ order[j]?.map Prod.fst = some 1 ∧ order[k]? = some (3, .getTimeline a 3)

instance (order : List (Nat × TwitterOp)) : Decidable (PublishedBetween order) := by
  unfold PublishedBetween
  infer_instance

/-- All there is to `do_op`: thirty sequences. -/
theorem count_serveAll : ∀ order ∈ interleavings ((List.range 4).map doOp),
    let counts := (serveAll count order (run ([a, b, c].map .addUser))).1
    ((ofParty counts 3)[0]?.getD 0 > (ofParty counts 2)[1]?.getD 0) ↔ PublishedBetween order := by
  decide

/-- What is in the store before the threads start. -/
theorem contents_populated (sort : TweetSort) (draws : Nat → Draws) :
    Strong (populated sort .linearizable draws)
      ∧ contents TwitterKey.name (populated sort .linearizable draws)
        = (run ([a, b, c].map .addUser)).toMap :=
  contents_after sort ([a, b, c].map fun u => ⟨.addUser u, draws⟩)

theorem doOp_eq_nil (i : Nat) (hi : i ∉ [1, 2, 3]) : doOp i = [] := by
  match i, hi with
  | 0, _ => rfl
  | n + 4, _ => rfl

theorem doOp_violation (sort : TweetSort) {draws : Nat → Draws} {turns : List (Nat × Draws)}
    (hfinished : Finished (iteration sort .linearizable draws turns) doOp) :
    ∃ order, Interleaves doOp order
      ∧ replyOf (iteration sort .linearizable draws turns) = (fun i k =>
        (ofParty (serveAll (TwitterState.serve sort) order (run ([a, b, c].map .addUser))).1 i)[k]?)
      ∧ (violation (replyOf (iteration sort .linearizable draws turns)) = true
        ↔ PublishedBetween order) := by
  obtain ⟨hw, hmap⟩ := contents_populated sort draws
  obtain ⟨order, hcalls, horder, hreplies⟩ :=
    (runsOnMap_strong TwitterKey.name_injective).exists_served hw (recorded_run _) hmap
      (fun _ _ _ => trivial)
      (fun i op _ st hst => ⟨hst.serve sort op, onMap_tweets hst sort op⟩) hfinished 4
      (fun i hi => doOp_eq_nil i (by simp; omega))
  refine ⟨order, hcalls, hreplies, ?_⟩
  have hcount := count_serveAll order horder
  have hlength : ∀ (l : List (List Tweet)) (k : Nat),
      (l.map List.length)[k]?.getD 0 = (l[k]?.getD []).length := by
    intro l k
    rw [List.getElem?_map]
    cases l[k]? <;> rfl
  simp only [serveAll_map (count_eq sort), ofParty_map, hlength] at hcount
  rw [show replyOf (iteration sort .linearizable draws turns) = _ from hreplies, ← hcount]
  exact decide_eq_true_iff

/-- The newsfeed is read before anything is published, and the timeline after. -/
def newsfeedFirst : List (Nat × Draws) :=
  List.replicate 12 (2, zeroDraws) ++ List.replicate 12 (1, zeroDraws)
    ++ List.replicate 6 (3, zeroDraws)

/-- The timeline is read after both tweets are published. -/
def beforeNewsfeed : List (Nat × Draws) :=
  List.replicate 12 (1, newestDraws) ++ List.replicate 6 (3, newestDraws)

/-- An insertion sort, which runs as it is. -/
def insertion : TweetSort where
  sort tweets := tweets.insertionSort fun t t' => t.timestamp ≤ t'.timestamp
  perm tweets := List.perm_insertionSort _ tweets
  sorted tweets := by
    have htotal : Std.Total fun t t' : Tweet => t.timestamp ≤ t'.timestamp :=
      ⟨fun t t' => Int.le_total t.timestamp t'.timestamp⟩
    have htrans : IsTrans Tweet fun t t' => t.timestamp ≤ t'.timestamp :=
      ⟨fun _ _ _ => Int.le_trans⟩
    exact List.pairwise_insertionSort _ tweets

/--
**What the driver counts.** On a linearizable store, in any interleaving of the threads of `do_op`
that has come to its end, the calls were served in some order of theirs one at a time, and
a violation is counted just if in that order a tweet is published after the newsfeed was read
and before the timeline is. So false alarms are counted. On a causal store a violation may
be counted where the thread that reads the newsfeed starts after all others have ended.
-/
theorem violation_iff :
    (∀ (sort : TweetSort) (draws : Nat → Draws) (turns : List (Nat × Draws)),
        Finished (iteration sort .linearizable draws turns) doOp →
        ∃ order, Interleaves doOp order
          ∧ replyOf (iteration sort .linearizable draws turns) = (fun i k => (ofParty (serveAll
            (TwitterState.serve sort) order (run ([a, b, c].map .addUser))).1 i)[k]?)
          ∧ (violation (replyOf (iteration sort .linearizable draws turns)) = true
            ↔ PublishedBetween order))
      ∧ (∃ (sort : TweetSort) (draws : Nat → Draws) (turns : List (Nat × Draws)),
        Finished (iteration sort .linearizable draws turns) doOp
          ∧ violation (replyOf (iteration sort .linearizable draws turns)) = true)
      ∧ ∃ (sort : TweetSort) (draws : Nat → Draws) (others newsfeed : List (Nat × Draws)),
        (∀ turn ∈ others, turn.1 ≠ 2) ∧ (∀ turn ∈ newsfeed, turn.1 = 2)
          ∧ Finished (iteration sort .causal draws (others ++ newsfeed)) doOp
          ∧ violation (replyOf (iteration sort .causal draws (others ++ newsfeed))) = true := by
  refine ⟨fun sort draws turns hfinished => doOp_violation sort hfinished, ?_, ?_⟩
  · refine ⟨insertion, fun _ => zeroDraws, newsfeedFirst, ?_, by decide +kernel⟩
    exact finished_of [1, 2, 3] (by decide) doOp_eq_nil (by decide +kernel)
  · refine ⟨insertion, fun _ => zeroDraws, beforeNewsfeed, List.replicate 12 (2, zeroDraws),
      by decide, by decide, ?_, by decide +kernel⟩
    exact finished_of [1, 2, 3] (by decide) doOp_eq_nil (by decide +kernel)

theorem violation_iff_newsfeedFirst :
    ∃ order, Interleaves doOp order
      ∧ replyOf (iteration insertion .linearizable (fun _ => zeroDraws) newsfeedFirst)
        = (fun i k => (ofParty (serveAll (TwitterState.serve insertion) order
          (run ([a, b, c].map .addUser))).1 i)[k]?)
      ∧ (violation (replyOf (iteration insertion .linearizable (fun _ => zeroDraws)
          newsfeedFirst)) = true ↔ PublishedBetween order) :=
  violation_iff.1 insertion (fun _ => zeroDraws) newsfeedFirst
    (finished_of [1, 2, 3] (by decide) doOp_eq_nil (by decide +kernel))

end RunTwitter

end MockDB
