import MockDB.Proof.AtomicThreads
import MockDB.Proof.TwitterNewsfeed

/-!
# Twitter served one call at a time

On the map of a state a call returns and leaves what `TwitterState.serve` says. So on a
linearizable store threads are served by the state machine, whatever they interleave like.
-/

namespace MockDB

open App Interleaving

namespace TwitterState

variable {st : TwitterState}

theorem serve_snd (sort : TweetSort) (op : TwitterOp) : (st.serve sort op).2 = st.step op := by
  cases op <;> rfl

theorem Recorded.serve (h : st.Recorded) (sort : TweetSort) (op : TwitterOp) :
    (st.serve sort op).2.Recorded := by
  rw [serve_snd]
  exact h.step op

end TwitterState

namespace Twitter

open TwitterState

variable {st : TwitterState} {miss : TwitterKey → StoreException String}

/-- A call on the map of a state, with what it returns. -/
theorem onMap_tweets (hst : st.Recorded) (sort : TweetSort) (op : TwitterOp) :
    (op.tweets sort).onMap miss st.toMap
      = (.ok (st.serve sort op).1, (st.serve sort op).2.toMap) := by
  cases op with
  | addUser u => simp [TwitterOp.tweets, onMap_addUser, serve, step]
  | follow a b => simp [TwitterOp.tweets, onMap_follow, serve, step]
  | publishTweet u t => simp [TwitterOp.tweets, onMap_publishTweet, serve, step]
  | getNewsfeed u => exact onMap_getNewsfeed miss hst sort u
  | getTimeline u s => exact onMap_timeline miss hst sort s u.id
  | getAllTimeline s => exact onMap_getAllTimeline miss hst sort s

/--
**Twitter's threads are served by its state machine.** On a linearizable store, after any calls
one at a time and then in any interleaving of threads whose calls stand between `tx_start` and
`tx_end`: whenever nobody holds the mutex, every thread has been returned what its calls
return in some sequence of the calls that have returned, which keeps the order of each
thread, and the store holds the state that the sequence leads to.
-/
theorem twitter_served (sort : TweetSort) (before : List TwitterCall)
    (calls : Nat → List TwitterOp) (turns : List (Nat × Draws)) :
    let pool := threads TwitterKey.name (after sort .linearizable before)
      (allInTx fun i => (calls i).map fun op => op.tweets sort) turns
    pool.holder = none → ∃ order : List (Nat × TwitterOp), Interleaves (made pool calls) order
      ∧ (∀ i, (pool.parties i).results
        = ofParty (serveAll (TwitterState.serve sort) order (state before)).1 i)
      ∧ contents TwitterKey.name pool.shared
        = (serveAll (TwitterState.serve sort) order (state before)).2.toMap := by
  intro pool hfree
  obtain ⟨hstrong, hmap⟩ := contents_after sort before
  exact (runsOnMap_strong TwitterKey.name_injective).served_ok hstrong (recorded_state before) hmap
    (fun _ _ _ => trivial) (fun i op _ st hst => ⟨hst.serve sort op, onMap_tweets hst sort op⟩)
    hfree

/-- A user publishes two tweets while another one starts to follow it. -/
def publishing : Nat → List TwitterOp
  | 0 => [.publishTweet ⟨1, "a"⟩ ⟨1, "hello", 1, 0, 0⟩,
      .publishTweet ⟨1, "a"⟩ ⟨2, "world", 2, 0, 0⟩]
  | 1 => [.follow ⟨2, "b"⟩ ⟨1, "a"⟩]
  | _ => []

theorem twitter_served_publishing :
    let before : List TwitterCall :=
      [⟨.addUser ⟨1, "a"⟩, fun _ => zeroDraws⟩, ⟨.addUser ⟨2, "b"⟩, fun _ => zeroDraws⟩]
    let pool := threads TwitterKey.name (after .stable .linearizable before)
      (allInTx fun i => (publishing i).map fun op => op.tweets .stable)
      (List.replicate 5 (0, zeroDraws) ++ List.replicate 6 (1, zeroDraws)
        ++ List.replicate 5 (0, zeroDraws))
    ∃ order : List (Nat × TwitterOp), Interleaves (made pool publishing) order
      ∧ (∀ i, (pool.parties i).results
        = ofParty (serveAll (TwitterState.serve .stable) order (state before)).1 i)
      ∧ contents TwitterKey.name pool.shared
        = (serveAll (TwitterState.serve .stable) order (state before)).2.toMap :=
  twitter_served .stable _ publishing _ (by decide +kernel)

end Twitter

end MockDB
