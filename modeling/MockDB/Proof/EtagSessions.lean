import MockDB.Proof.Etag
import MockDB.Proof.Versions

/-!
# Sessions of the server, in any run

Comparing with whatever version the session is given does not compare and swap, but it does
not fail a session that updates what it wrote itself: the floor of a session is never below
its own last put. So a POST that succeeds names a version that is not older than that, one
session never wins twice with one etag, and a session alone on a key compares and swaps. The same
floor is what its GETs go by.
-/

namespace MockDB

open HttpServer

variable {log done : List (PostRequest × HttpResponse)} {req : PostRequest} {resp : HttpResponse}

/-- The etag names a version of the key, none if there is none, and one not older than
those that the session itself has put. -/
structure Admits (done : List (PostRequest × HttpResponse)) (req : PostRequest) (version : Nat) :
    Prop where
  exists_version : version ≤ (performed done req.key).length
  of_zero : version = 0 → performed done req.key = []
  own : ∀ (j : Nat) (r : PostRequest × HttpResponse), (performed done req.key)[j]? = some r →
    r.1.sessionId = req.sessionId → j + 1 ≤ version

/-- The latest version of the key, if any, is the session's own. -/
def LatestOwn (done : List (PostRequest × HttpResponse)) (req : PostRequest) : Prop :=
  ∀ r, (performed done req.key).getLast? = some r → r.1.sessionId = req.sessionId

/-- How a POST with etag `e` is answered after those of `done`. -/
structure Decided (done : List (PostRequest × HttpResponse)) (req : PostRequest)
    (resp : HttpResponse) (e : String) : Prop where
  success : resp.status = 200 → ∃ version, e = toString version ∧ Admits done req version
  swap : LatestOwn done req →
    (resp.status = 200 ↔ e = toString (performed done req.key).length)

/-- What a session may name is the latest version if that is its own. -/
theorem Admits.eq_length {version : Nat} (h : Admits done req version)
    (hown : LatestOwn done req) : version = (performed done req.key).length := by
  refine Nat.le_antisymm h.exists_version ?_
  cases hlast : (performed done req.key).getLast? with
  | none => simp [List.getLast?_eq_none_iff.mp hlast]
  | some r =>
      rw [List.getLast?_eq_getElem?] at hlast
      have hlt := (List.getElem?_eq_some_iff.mp hlast).1
      have hle := h.own _ r hlast (hown r (by rw [List.getLast?_eq_getElem?]; exact hlast))
      omega

/-! ## The log -/

/-- A put stays where it is among those performed on its key. -/
theorem performed_getElem? {i j : Nat} (hij : i < j) (hi : log[i]? = some (req, resp))
    (hs : resp.status = 200) :
    (performed (log.take j) req.key)[(performed (log.take i) req.key).length]?
      = some (req, resp) := by
  have hnext : performed (log.take (i + 1)) req.key
      = performed (log.take i) req.key ++ [(req, resp)] := by
    rw [List.take_add_one, hi, Option.toList_some, performed_concat, if_pos ⟨rfl, hs⟩]
  have hprefix : performed (log.take (i + 1)) req.key <+: performed (log.take j) req.key :=
    (List.take_prefix_take_left hij).filter _
  obtain ⟨rest, hrest⟩ := hprefix
  rw [← hrest, hnext, List.append_assoc, List.getElem?_append_right (Nat.le_refl _)]
  simp

/-- All conditional POSTs of a log are decided as above. -/
def AllDecided (log : List (PostRequest × HttpResponse)) : Prop :=
  ∀ i req resp e, log[i]? = some (req, resp) → req.etag = some e →
    Decided (log.take i) req resp e

theorem allDecided_concat (h : AllDecided log)
    (hnew : ∀ e, req.etag = some e → Decided log req resp e) :
    AllDecided (log ++ [(req, resp)]) := by
  intro i req' resp' e hi he
  rcases ListOrder.getElem?_concat hi with ⟨hlt, hi⟩ | ⟨rfl, heq⟩
  · rw [ListOrder.take_concat (Nat.le_of_lt hlt)]
    exact h i req' resp' e hi he
  · obtain ⟨rfl, rfl⟩ := Prod.mk.inj heq
    rw [List.take_left]
    exact hnew e he

/-- Two POSTs that both succeed with one etag are of different sessions, and the etag is not
`0`. -/
theorem AllDecided.once (h : AllDecided log) {i j : Nat} {ri rj : PostRequest × HttpResponse}
    (hij : i < j) (hi : log[i]? = some ri) (hj : log[j]? = some rj) (hkey : ri.1.key = rj.1.key)
    {e : String} (hei : ri.1.etag = some e) (hej : rj.1.etag = some e) (hsi : ri.2.status = 200)
    (hsj : rj.2.status = 200) : ri.1.sessionId ≠ rj.1.sessionId ∧ e ≠ toString 0 := by
  obtain ⟨n, hn, hadmits⟩ := (h i ri.1 ri.2 e hi hei).success hsi
  obtain ⟨m, hm, hadmits'⟩ := (h j rj.1 rj.2 e hj hej).success hsj
  obtain rfl : n = m := toString_inj (hn.symm.trans hm)
  have hput := performed_getElem? hij hi hsi
  rw [hkey] at hput
  refine ⟨fun hsession => ?_, fun hzero => ?_⟩
  · -- the second names a version that the first has put
    have hle := hadmits'.own _ _ hput hsession
    have hge := hadmits.exists_version
    rw [hkey] at hge
    omega
  · have hempty := hadmits'.of_zero (toString_inj (hn.symm.trans hzero))
    rw [hempty] at hput
    cases hput

/-! ## Every run -/

/-- The log is decided as above, and so is the put under way; no floor is below a session's
own put. -/
structure SessionLog (s : HttpServer) : Prop where
  log : AllDecided s.postReplies
  putting : ∀ req txId, s.posting = some (.putting req txId) → ∀ e, req.etag = some e →
    ∃ version, e = toString version ∧ Admits s.postReplies req version
  floor : ∀ (key : String) (j : Nat) (r : PostRequest × HttpResponse),
    (performed s.postReplies key)[j]? = some r →
    j + 1 ≤ sessionFloor s.world.store.history r.1.sessionId key

theorem sessionLog_new : SessionLog HttpServer.new where
  log := by intro i req resp e hi; cases hi
  putting := by intro req txId hp; cases hp
  floor := by intro key j r hr; cases hr

section Step

variable {s : HttpServer}

/-- Histories grow at the end. -/
theorem history_act (w : World String Json) (a : Act String Json) :
    w.store.history <+: (w.act a).store.history := by
  rcases act_history w a with heq | ⟨tx, key, r, heq⟩ | ⟨-, -, tx, key, v, r, -, -, -, heq⟩
  · rw [heq]
  · rw [heq]; exact List.prefix_append _ _
  · rw [heq]; exact List.prefix_append _ _

/-- Floors stay above own puts as the history grows. -/
theorem SessionLog.floor_mono (h : SessionLog s) {w : World String Json}
    (hw : s.world.store.history <+: w.store.history) {key : String} {j : Nat}
    {r : PostRequest × HttpResponse} (hr : (performed s.postReplies key)[j]? = some r) :
    j + 1 ≤ sessionFloor w.store.history r.1.sessionId key := by
  obtain ⟨rest, hrest⟩ := hw
  rw [← hrest]
  exact Nat.le_trans (h.floor key j r hr) (sessionFloor_append _ _ _ _)

/-- A step of another handler, or one that answers no POST. -/
theorem SessionLog.keep (h : SessionLog s) {s' : HttpServer}
    (hworld : s.world.store.history <+: s'.world.store.history)
    (hreplies : s'.postReplies = s.postReplies)
    (hposting : ∀ req txId, s'.posting = some (.putting req txId) → ∀ e, req.etag = some e →
      ∃ version, e = toString version ∧ Admits s.postReplies req version) : SessionLog s' where
  log := hreplies ▸ h.log
  putting := by rw [hreplies]; exact hposting
  floor key j r hr := h.floor_mono hworld (hreplies ▸ hr)

/-- What the check reads is admitted. -/
theorem SessionLog.admits (hs : ServerInv s) (h : SessionLog s) {n : Nat}
    (hread : ((versionsOf req.key s.world.store.history).length = 0 ∧ n = 0)
      ∨ (max 1 (sessionFloor s.world.store.history req.sessionId req.key) ≤ n
        ∧ n ≤ (versionsOf req.key s.world.store.history).length)) :
    Admits s.postReplies req n := by
  rw [hs.count] at hread
  rcases hread with ⟨hnone, rfl⟩ | ⟨hlo, hhi⟩
  · have hempty := List.length_eq_zero_iff.mp hnone
    exact ⟨Nat.zero_le _, fun _ => hempty, fun j r hr => by rw [hempty] at hr; cases hr⟩
  · obtain ⟨hone, hfloor⟩ := Nat.max_le.mp hlo
    refine ⟨hhi, fun hzero => by omega, fun j r hr hsession => ?_⟩
    exact Nat.le_trans (hsession ▸ h.floor req.key j r hr) hfloor

/-- The check rejects the POST or goes on to its put. -/
theorem sessionLog_check (hs : ServerInv s) (h : SessionLog s) {e : String} {txId : Nat}
    (hp : s.posting = some (.checking req e txId)) (draws : Draws) :
    SessionLog (s.handlePostCheck req e txId draws) := by
  obtain ⟨result, hres, hread⟩ := check_reads hs hp draws
  have hadmits := h.admits hs hread
  have hetag := hs.etag req e txId hp
  have hgrow := history_act s.world (.enter txId draws)
  unfold handlePostCheck
  simp only [hres]
  by_cases he : toString (versionRead result) = e
  · rw [if_neg (not_not.mpr he)]
    refine h.keep hgrow rfl fun req' id hp' e' he' => ?_
    cases hp'
    rw [hetag] at he'
    exact ⟨_, (Option.some.inj he').symm.trans he.symm, hadmits⟩
  · rw [if_pos he]
    refine ⟨allDecided_concat h.log fun e' he' => ?_, (fun _ _ hp' => nomatch hp'), ?_⟩
    · rw [hetag] at he'
      obtain rfl := Option.some.inj he'
      refine ⟨fun hok => absurd hok (by decide),
        fun hown => iff_of_false (by decide) fun hcount => ?_⟩
      exact he ((congrArg toString (hadmits.eq_length hown)).trans hcount.symm)
    · intro key j r hr
      rw [performed_concat, if_neg fun hh => absurd hh.2 (by decide)] at hr
      exact h.floor_mono hgrow hr

/-- The put of a POST is its session's latest version. -/
theorem sessionLog_put (hs : ServerInv s) (h : SessionLog s) {txId : Nat}
    (hp : s.posting = some (.putting req txId)) (draws : Draws) :
    SessionLog (s.handlePostPut req txId draws) := by
  obtain ⟨-, tx, hpend, hsession, hop⟩ := hs.post _ hp
  have hstore : (s.world.act (.enter txId draws)).store = _ := (enter_put hpend hop draws).2
  have hfresh := (worldOk_reachable hs.reach).waiting_fresh hpend
  refine ⟨allDecided_concat h.log fun e he => ?_, (fun _ _ hp' => nomatch hp'), ?_⟩
  · obtain ⟨version, heq, hadmits⟩ := h.putting req txId hp e he
    refine ⟨fun _ => ⟨version, heq, hadmits⟩, fun hown => iff_of_true rfl ?_⟩
    exact heq.trans (congrArg toString (hadmits.eq_length hown))
  · intro key j r hr
    replace hr : (performed (s.postReplies ++ [(req, postSuccess)]) key)[j]? = some r := hr
    show j + 1 ≤ sessionFloor (s.world.act (.enter txId draws)).store.history r.1.sessionId key
    rw [performed_concat] at hr
    by_cases hkey : req.key = key
    · rw [if_pos ⟨hkey, rfl⟩] at hr
      rcases ListOrder.getElem?_concat hr with ⟨-, hold⟩ | ⟨rfl, rfl⟩
      · exact h.floor_mono (history_act s.world (.enter txId draws)) hold
      · rw [hstore, KvStore.putLocked_history,
          hs.wellFormed.sessionFloor_put hfresh, if_pos ⟨hsession.symm, hkey.symm⟩, hkey, hs.count]
    · rw [if_neg fun hh => hkey hh.1] at hr
      exact h.floor_mono (history_act s.world (.enter txId draws)) hr

/-- **Every step of the server** keeps the log decided. -/
theorem sessionLog_act (uri : Uri) (hs : ServerInv s) (h : SessionLog s) (a : Step) :
    SessionLog (s.act uri a) := by
  cases a with
  | getRequest message =>
      simp only [HttpServer.act, handleGet]
      split
      · exact h
      · split
        · exact h.keep (List.prefix_refl _) rfl h.putting
        · exact h.keep (List.prefix_refl _) rfl h.putting
  | getEnter id draws =>
      simp only [HttpServer.act, handleGetEnter]
      split
      · split
        · exact h
        · exact h.keep (history_act s.world (.enter id draws)) rfl h.putting
      · exact h
  | postRequest message =>
      simp only [HttpServer.act, handlePost]
      split
      · exact h
      · split
        · exact h
        · split
          · -- without an etag nothing is named
            rename_i hnone
            refine h.keep (List.prefix_refl _) rfl fun req id hp e he => ?_
            cases hp
            exact absurd (hnone.symm.trans he) (by simp)
          · exact h.keep (List.prefix_refl _) rfl fun _ _ hp => by cases hp
  | postEnter draws =>
      cases hp : s.posting with
      | none =>
          simp only [HttpServer.act, hp]
          exact h
      | some p =>
          cases p with
          | checking req e txId =>
              simp only [HttpServer.act, hp]
              exact sessionLog_check hs h hp draws
          | putting req txId =>
              simp only [HttpServer.act, hp]
              exact sessionLog_put hs h hp draws

theorem sessionLog_run (uri : Uri) (steps : List Step) {s : HttpServer} (hs : ServerInv s)
    (h : SessionLog s) : SessionLog (s.run uri steps) := by
  induction steps generalizing s with
  | nil => exact h
  | cons a steps ih => exact ih (serverInv_act uri hs a) (sessionLog_act uri hs h a)

/--
**Conditional POSTs in any run.** A POST with an etag that succeeds names a version of its key
not older than those its session has put, and none only where there is none; where
the latest version is the session's own, it compares and swaps. So of two POSTs on a key
with one etag that both succeed, the sessions differ, and the etag is not `0`.
-/
theorem conditional_posts (uri : Uri) (steps : List Step) :
    let log := (HttpServer.new.run uri steps).postReplies
    AllDecided log
      ∧ ∀ (i j : Nat) (ri rj : PostRequest × HttpResponse) (e : String), i ≠ j →
        log[i]? = some ri → log[j]? = some rj → ri.1.key = rj.1.key → ri.1.etag = some e →
        rj.1.etag = some e → ri.2.status = 200 → rj.2.status = 200 →
        ri.1.sessionId ≠ rj.1.sessionId ∧ e ≠ toString 0 := by
  intro log
  have hlog : AllDecided log := (sessionLog_run uri steps serverInv_new sessionLog_new).log
  refine ⟨hlog, fun i j ri rj e hne hi hj hkey hei hej hsi hsj => ?_⟩
  rcases Nat.lt_or_gt_of_ne hne with hlt | hgt
  · exact hlog.once hlt hi hj hkey hei hej hsi hsj
  · obtain ⟨hsession, hzero⟩ := hlog.once hgt hj hi hkey.symm hej hei hsj hsi
    exact ⟨hsession.symm, hzero⟩

/-! ## What GETs are told -/

/-- A GET that found its way into the store: who asked for what, and the reply. -/
structure GetAnswer where
  sessionId : Int
  key : String
  reply : HttpResponse

/-- The GET that a step answers. -/
def answered (s : HttpServer) : Step → Option GetAnswer
  | .getEnter id draws =>
      if id ∈ s.getting then
        match s.world.pending id, s.world.enterGetWithVersion id draws with
        | some tx, some result => some ⟨tx.sessionId, tx.op.key, getReply result⟩
        | _, _ => none
      else none
  | _ => none

/-- The GETs that a run answers, each with the POSTs that were answered before. -/
def getAnswers (uri : Uri) :
    HttpServer → List Step → List (List (PostRequest × HttpResponse) × GetAnswer)
  | _, [] => []
  | s, a :: steps =>
      ((answered s a).map fun g => (s.postReplies, g)).toList ++ getAnswers uri (s.act uri a) steps

/-- A reply after the POSTs of `done`: that of a missing key, or a version that one of them has
put, not older than those that the session itself has put. -/
def GetReplied (done : List (PostRequest × HttpResponse)) (g : GetAnswer) : Prop :=
  (performed done g.key = [] ∧ g.reply = ⟨404, none, none⟩)
    ∨ ∃ (n : Nat) (r : PostRequest × HttpResponse), (performed done g.key)[n]? = some r
      ∧ g.reply = ⟨200, some (n + 1), some r.1.value⟩
      ∧ ∀ (m : Nat) (r' : PostRequest × HttpResponse), (performed done g.key)[m]? = some r' →
        r'.1.sessionId = g.sessionId → m ≤ n

/-- Later GETs of a session on a key are not told older versions. -/
def VersionsRise (gets : List (List (PostRequest × HttpResponse) × GetAnswer)) : Prop :=
  ∀ (i j : Nat) (gi gj : List (PostRequest × HttpResponse) × GetAnswer) (n m : Nat), i < j →
    gets[i]? = some gi → gets[j]? = some gj → gi.2.sessionId = gj.2.sessionId →
    gi.2.key = gj.2.key → gi.2.reply.etag = some n → gj.2.reply.etag = some m → n ≤ m

/-- What has been told up to now. -/
structure GetLog (s : HttpServer) (gets : List (List (PostRequest × HttpResponse) × GetAnswer)) :
    Prop where
  before : ∀ g ∈ gets, g.1 <+: s.postReplies
  replied : ∀ g ∈ gets, GetReplied g.1 g.2
  rise : VersionsRise gets
  floor : ∀ g ∈ gets, ∀ n, g.2.reply.etag = some n →
    n ≤ sessionFloor s.world.store.history g.2.sessionId g.2.key

section Gets

variable {s : HttpServer} {gets : List (List (PostRequest × HttpResponse) × GetAnswer)}

theorem getLog_new : GetLog HttpServer.new [] where
  before := by intro g hg; cases hg
  replied := by intro g hg; cases hg
  rise := by intro i j gi gj n m _ hi; cases hi
  floor := by intro g hg; cases hg

/-- The history and the log grow at their ends. -/
theorem grows_act (uri : Uri) (s : HttpServer) (a : Step) :
    s.world.store.history <+: (s.act uri a).world.store.history
      ∧ s.postReplies <+: (s.act uri a).postReplies := by
  have hsame := And.intro (List.prefix_refl s.world.store.history) (List.prefix_refl s.postReplies)
  cases a with
  | getRequest message =>
      simp only [HttpServer.act, handleGet]
      split
      · exact hsame
      · split
        · exact hsame
        · exact hsame
  | getEnter id draws =>
      simp only [HttpServer.act, handleGetEnter]
      split
      · split
        · exact hsame
        · exact ⟨history_act s.world _, hsame.2⟩
      · exact hsame
  | postRequest message =>
      simp only [HttpServer.act, handlePost]
      split
      · exact hsame
      · split
        · exact hsame
        · split
          · exact hsame
          · exact hsame
  | postEnter draws =>
      simp only [HttpServer.act]
      split
      · exact hsame
      · simp only [handlePostCheck]
        split
        · exact hsame
        · split
          · exact ⟨history_act s.world _, List.prefix_append _ _⟩
          · exact ⟨history_act s.world _, hsame.2⟩
      · exact ⟨history_act s.world _, List.prefix_append _ _⟩

/-- A step that answers no GET. -/
theorem GetLog.keep (h : GetLog s gets) (uri : Uri) (a : Step) : GetLog (s.act uri a) gets where
  before g hg := (h.before g hg).trans (grows_act uri s a).2
  replied := h.replied
  rise := h.rise
  floor g hg n hn := by
    obtain ⟨⟨rest, hrest⟩, -⟩ := grows_act uri s a
    rw [← hrest]
    exact Nat.le_trans (h.floor g hg n hn) (sessionFloor_append _ _ _ _)

/-- One more GET, told a version from its session's floor up. -/
theorem GetLog.concat (h : GetLog s gets) {s' : HttpServer} {g : GetAnswer}
    (hgrow : s.world.store.history <+: s'.world.store.history)
    (hposts : s'.postReplies = s.postReplies) (hreplied : GetReplied s.postReplies g)
    (hold : ∀ n, g.reply.etag = some n →
      sessionFloor s.world.store.history g.sessionId g.key ≤ n)
    (hnew : ∀ n, g.reply.etag = some n →
      n ≤ sessionFloor s'.world.store.history g.sessionId g.key) :
    GetLog s' (gets ++ [(s.postReplies, g)]) where
  before g' hg' := by
    rw [hposts]
    rcases List.mem_append.mp hg' with hbefore | hlast
    · exact h.before g' hbefore
    · exact List.mem_singleton.mp hlast ▸ List.prefix_refl _
  replied g' hg' := by
    rcases List.mem_append.mp hg' with hbefore | hlast
    · exact h.replied g' hbefore
    · obtain rfl := List.mem_singleton.mp hlast
      exact hreplied
  rise a b ga gb n m hab ha hb hsession hkey hn hm := by
    rcases ListOrder.getElem?_concat ha with ⟨hlt, ha⟩ | ⟨rfl, rfl⟩
    · rcases ListOrder.getElem?_concat hb with ⟨-, hb⟩ | ⟨rfl, rfl⟩
      · exact h.rise a b ga gb n m hab ha hb hsession hkey hn hm
      · have hle := h.floor ga (List.mem_of_getElem? ha) n hn
        rw [hsession, hkey] at hle
        exact Nat.le_trans hle (hold m hm)
    · -- nothing comes after the last
      rcases ListOrder.getElem?_concat hb with ⟨hlt, -⟩ | ⟨rfl, -⟩ <;> omega
  floor g' hg' n hn := by
    rcases List.mem_append.mp hg' with hbefore | hlast
    · obtain ⟨rest, hrest⟩ := hgrow
      rw [← hrest]
      exact Nat.le_trans (h.floor g' hbefore n hn) (sessionFloor_append _ _ _ _)
    · obtain rfl := List.mem_singleton.mp hlast
      exact hnew n hn

/-- A GET that enters the store. -/
theorem getLog_enter (hs : ServerInv s) (hlog : SessionLog s) (h : GetLog s gets) {id : Nat}
    (hid : id ∈ s.getting) (draws : Draws) :
    ∃ g, answered s (.getEnter id draws) = some g
      ∧ (s.handleGetEnter id draws).getReplies = s.getReplies ++ [g.reply]
      ∧ GetLog (s.handleGetEnter id draws) (gets ++ [(s.postReplies, g)]) := by
  obtain ⟨tx, p, r, hpend, hop⟩ := hs.gets id hid
  have hkey : tx.op.key = p.key := by rw [hop]; rfl
  have hgrow := history_act s.world (.enter id draws)
  unfold answered handleGetEnter
  rcases enter_get hs.wellFormed hpend hop draws with
    ⟨hnone, hresult, -, -⟩ | ⟨i, c, ⟨hversion, hfloor, -⟩, hresult, -, hstore⟩
  · simp only [if_pos hid, hpend, hresult, hkey]
    refine ⟨_, rfl, rfl, h.concat hgrow rfl (Or.inl ⟨?_, rfl⟩) (fun n hn => nomatch hn)
      fun n hn => nomatch hn⟩
    have hput := hs.puts p.key
    rw [hnone] at hput
    exact List.map_eq_nil_iff.mp hput.symm
  · simp only [if_pos hid, hpend, hresult, hkey]
    have hput : ((performed s.postReplies p.key).map (·.1.value))[i]? = some c.1 := by
      rw [← hs.puts p.key, List.getElem?_map, hversion]
      rfl
    rw [List.getElem?_map, Option.map_eq_some_iff] at hput
    obtain ⟨put, hput, hvalue⟩ := hput
    refine ⟨_, rfl, rfl, h.concat hgrow rfl (Or.inr ⟨i, put, hput, by rw [hvalue]; rfl, ?_⟩) ?_ ?_⟩
    · intro m r' hr' hown
      have hle := hlog.floor p.key m r' hr'
      rw [show r'.1.sessionId = tx.sessionId from hown] at hle
      omega
    · intro n hn
      obtain rfl := Option.some.inj hn
      exact hfloor
    · intro n hn
      obtain rfl := Option.some.inj hn
      show i + 1 ≤ sessionFloor (s.world.act (.enter id draws)).store.history tx.sessionId p.key
      rw [hstore, KvStore.afterGet_history, WellFormed.sessionFloor_get, if_pos ⟨rfl, rfl⟩]
      exact Nat.le_max_right _ _

/-- What a step replies to GETs: nothing, that they are bad requests, or what they ask for. -/
theorem getLog_act (uri : Uri) (hs : ServerInv s) (hlog : SessionLog s) (h : GetLog s gets)
    (a : Step) :
    GetLog (s.act uri a) (gets ++ ((answered s a).map fun g => (s.postReplies, g)).toList)
      ∧ ∃ bad : List HttpResponse, (∀ reply ∈ bad, reply = badRequest)
        ∧ (s.act uri a).getReplies
          = s.getReplies ++ bad ++ ((answered s a).map (·.reply)).toList := by
  have hkeep := h.keep uri a
  cases a with
  | getRequest message =>
      refine ⟨by simpa [answered] using hkeep, ?_⟩
      simp only [HttpServer.act, handleGet, answered]
      split
      · exact ⟨[], by simp, by simp⟩
      · split
        · exact ⟨[], by simp, by simp⟩
        · exact ⟨[badRequest], by simp, by simp⟩
  | getEnter id draws =>
      by_cases hid : id ∈ s.getting
      · obtain ⟨g, hg, hreplies, hlater⟩ := getLog_enter hs hlog h hid draws
        have hact : s.act uri (.getEnter id draws) = s.handleGetEnter id draws := if_pos hid
        rw [hact, hg]
        exact ⟨hlater, [], by simp, by simpa using hreplies⟩
      · have hact : s.act uri (.getEnter id draws) = s := if_neg hid
        have hnone : answered s (.getEnter id draws) = none := if_neg hid
        rw [hact, hnone]
        exact ⟨by simpa using h, [], by simp, by simp⟩
  | postRequest message =>
      refine ⟨by simpa [answered] using hkeep, [], by simp, ?_⟩
      simp only [HttpServer.act, handlePost, beginPut, answered]
      split
      · simp
      · split
        · simp
        · split
          · simp
          · simp
  | postEnter draws =>
      refine ⟨by simpa [answered] using hkeep, [], by simp, ?_⟩
      simp only [HttpServer.act, handlePostCheck, handlePostPut, beginPut, answered]
      split
      · simp
      · split
        · simp
        · split
          · simp
          · simp
      · simp

theorem GetReplied.status_ne {done : List (PostRequest × HttpResponse)} {g : GetAnswer}
    (h : GetReplied done g) : g.reply.status ≠ 400 := by
  rcases h with ⟨-, hreply⟩ | ⟨n, r, -, hreply, -⟩
  · rw [hreply]; decide
  · rw [hreply]; exact (by decide : (200 : Nat) ≠ 400)

theorem getLog_run (uri : Uri) (steps : List Step) (hs : ServerInv s) (hlog : SessionLog s)
    (h : GetLog s gets) (hbad : ∀ reply ∈ s.getReplies, reply.status = 400 → reply = badRequest) :
    GetLog (s.run uri steps) (gets ++ getAnswers uri s steps)
      ∧ (∀ reply ∈ (s.run uri steps).getReplies, reply.status = 400 → reply = badRequest)
      ∧ (s.run uri steps).getReplies.filter (·.status ≠ 400)
        = s.getReplies.filter (·.status ≠ 400)
          ++ (getAnswers uri s steps).map fun g => g.2.reply := by
  induction steps generalizing s gets with
  | nil =>
      rw [getAnswers, List.append_nil]
      exact ⟨h, hbad, by simp [HttpServer.run]⟩
  | cons a steps ih =>
      obtain ⟨hnext, bad, hallbad, hreplies⟩ := getLog_act uri hs hlog h a
      have hstatus : ∀ g, answered s a = some g → g.reply.status ≠ 400 := fun g hg =>
        (hnext.replied (s.postReplies, g) (by simp [hg])).status_ne
      obtain ⟨hend, hendbad, hendreplies⟩ := ih (serverInv_act uri hs a)
        (sessionLog_act uri hs hlog a) hnext (by
          intro reply hreply hcode
          rw [hreplies] at hreply
          rcases List.mem_append.mp hreply with hreply | hlast
          · rcases List.mem_append.mp hreply with hold | hnew
            · exact hbad reply hold hcode
            · exact hallbad reply hnew
          · obtain ⟨g, hg, rfl⟩ := by simpa using hlast
            exact absurd hcode (hstatus g hg))
      rw [List.append_assoc] at hend
      refine ⟨hend, hendbad, ?_⟩
      have hnone : bad.filter (·.status ≠ 400) = [] := by
        rw [List.filter_eq_nil_iff]
        intro reply hreply
        rw [hallbad reply hreply]
        decide
      have hsome : ((answered s a).map (·.reply)).toList.filter (·.status ≠ 400)
          = ((answered s a).map (·.reply)).toList := by
        cases hg : answered s a with
        | none => rfl
        | some g => simp [hstatus g hg]
      have hhead : (((answered s a).map fun g => (s.postReplies, g)).toList).map
          (fun g => g.2.reply) = ((answered s a).map (·.reply)).toList := by
        cases answered s a <;> rfl
      calc ((s.act uri a).run uri steps).getReplies.filter (·.status ≠ 400)
          = (s.act uri a).getReplies.filter (·.status ≠ 400)
            ++ (getAnswers uri (s.act uri a) steps).map fun g => g.2.reply := hendreplies
        _ = _ := by
          rw [hreplies, List.filter_append, List.filter_append, hnone, hsome, getAnswers,
            List.map_append, hhead, List.append_nil, List.append_assoc]

/--
**What sessions are told.** In any run every GET is answered as a bad request, or from the POSTs
answered before it. It is told `404` only if none of them has put its key. Else it is told the value
and the number of a version that one of them has put, and that version is not older than one that
the session has put, or was told before. The reply that no consistent response is possible
is never given. All this goes by the order in which the handlers leave the store.
-/
theorem get_replies (uri : Uri) (steps : List Step) :
    let s := HttpServer.new.run uri steps
    let gets := getAnswers uri HttpServer.new steps
    (∀ reply ∈ s.getReplies, reply.status = 400 → reply = badRequest)
      ∧ s.getReplies.filter (·.status ≠ 400) = gets.map (fun g => g.2.reply)
      ∧ (∀ g ∈ gets, g.1 <+: s.postReplies ∧ GetReplied g.1 g.2)
      ∧ VersionsRise gets := by
  intro s gets
  obtain ⟨h, hbad, hreplies⟩ := getLog_run uri steps serverInv_new sessionLog_new getLog_new
    fun _ h => nomatch h
  rw [List.nil_append] at h
  exact ⟨hbad, hreplies, fun g hg => ⟨h.before g hg, h.replied g hg⟩, h.rise⟩

end Gets

end Step

end MockDB
