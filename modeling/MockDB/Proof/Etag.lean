import MockDB.HttpServer.HttpServer
import MockDB.Proof.Pending

/-!
# Conditional POSTs

`handle_post` compares the etag with whatever version a GET by its session is given, and
under the causal selector that need not be the latest. The comparison is with the latest
version for certain exactly when no older one could be given, or when no version that
could be given has the etag for its numeral (`CheckCertain`). Runs that check only from such
states compare and swap; from any other state some draws make the check go wrong.
-/

namespace MockDB

open HttpServer

/-- The POSTs on `key` that were answered with success. -/
def performed (log : List (PostRequest × HttpResponse)) (key : String) :
    List (PostRequest × HttpResponse) :=
  log.filter (fun r => r.1.key = key ∧ r.2.status = 200)

/-- **Compare and swap**: a POST with an etag performs its put iff the etag is the number of
PUTs performed on its key before. -/
def ComparesAndSwaps (log : List (PostRequest × HttpResponse)) : Prop :=
  ∀ i req resp e, log[i]? = some (req, resp) → req.etag = some e →
    (resp.status = 200 ↔ e = toString (performed (log.take i) req.key).length)

/-- No two POSTs on a key with one etag both perform their puts. -/
def EtagsUsedOnce (log : List (PostRequest × HttpResponse)) : Prop :=
  ∀ (i j : Nat) (ri rj : PostRequest × HttpResponse), i ≠ j → log[i]? = some ri →
    log[j]? = some rj → ri.1.key = rj.1.key → ri.1.etag.isSome = true → ri.1.etag = rj.1.etag →
    ¬ (ri.2.status = 200 ∧ rj.2.status = 200)

/-- The puts of the answered POSTs are the versions of each key, in order. -/
def NothingLost (h : List (Transaction String Json)) (log : List (PostRequest × HttpResponse)) :
    Prop :=
  ∀ k, (versionsOf k h).map Prod.fst = (performed log k).map (fun r => r.1.value)

/-- No version that a GET of `key` by session `s` could be given makes a comparison with
`etag` come out other than the latest version does. -/
def CheckCertain (h : List (Transaction String Json)) (s : Int) (key etag : String) : Prop :=
  (versionsOf key h).length ≤ max 1 (sessionFloor h s key)
    ∨ ∀ j, max 1 (sessionFloor h s key) ≤ j → j ≤ (versionsOf key h).length → etag ≠ toString j

/-- A step that compares an etag does so from a state where the outcome is certain. -/
def StepCertain (s : HttpServer) : Step → Prop
  | .postEnter _ => ∀ req etag txId, s.posting = some (.checking req etag txId) →
      CheckCertain s.world.store.history req.sessionId req.key etag
  | _ => True

/-- A run all of whose comparisons are certain. -/
def RunCertain (uri : Uri) : HttpServer → List Step → Prop
  | _, [] => True
  | s, a :: steps => StepCertain s a ∧ RunCertain uri (s.act uri a) steps

/-! ## The log -/

section Log

variable {log : List (PostRequest × HttpResponse)} {req : PostRequest} {resp : HttpResponse}

theorem performed_concat (k : String) :
    performed (log ++ [(req, resp)]) k
      = if req.key = k ∧ resp.status = 200 then performed log k ++ [(req, resp)]
        else performed log k := by
  unfold performed
  rw [List.filter_append]
  by_cases h : req.key = k ∧ resp.status = 200
  · simp [h]
  · simp [h]

theorem performed_take_mono (log : List (PostRequest × HttpResponse)) {i j : Nat} (h : i ≤ j)
    (k : String) :
    (performed (log.take i) k).length ≤ (performed (log.take j) k).length := by
  unfold performed
  exact (((List.take_prefix_take_left h).sublist).filter _).length_le

theorem performed_take_succ {i : Nat} (hi : log[i]? = some (req, resp))
    (hs : resp.status = 200) :
    (performed (log.take (i + 1)) req.key).length
      = (performed (log.take i) req.key).length + 1 := by
  rw [List.take_add_one, hi, Option.toList_some, performed_concat, if_pos ⟨rfl, hs⟩,
    List.length_append]
  rfl

theorem comparesAndSwaps_concat (h : ComparesAndSwaps log)
    (hnew : ∀ e, req.etag = some e →
      (resp.status = 200 ↔ e = toString (performed log req.key).length)) :
    ComparesAndSwaps (log ++ [(req, resp)]) := by
  intro i req' resp' e hi he
  rcases ListOrder.getElem?_concat hi with ⟨hlt, hi⟩ | ⟨rfl, heq⟩
  · rw [ListOrder.take_concat (Nat.le_of_lt hlt)]
    exact h i req' resp' e hi he
  · obtain ⟨rfl, rfl⟩ := Prod.mk.inj heq
    rw [List.take_left]
    exact hnew e he

theorem toString_inj {m n : Nat} (h : toString m = toString n) : m = n := by
  have := congrArg (fun s => Nat.ofDigitChars 10 s.toList 0) h
  simpa using this

/-- Each performed put raises the number that later etags are compared with. -/
theorem etagsUsedOnce (h : ComparesAndSwaps log) : EtagsUsedOnce log := by
  have key : ∀ {i j : Nat} {ri rj : PostRequest × HttpResponse}, i < j →
      log[i]? = some ri → log[j]? = some rj → ri.1.key = rj.1.key →
      ri.1.etag.isSome = true → ri.1.etag = rj.1.etag →
      ri.2.status = 200 → rj.2.status = 200 → False := by
    intro i j ri rj hij hi hj hkey hsome heq hsi hsj
    obtain ⟨e, he⟩ := Option.isSome_iff_exists.mp hsome
    have h1 := (h i ri.1 ri.2 e hi he).mp hsi
    have h2 := (h j rj.1 rj.2 e hj (heq ▸ he)).mp hsj
    have hsame := toString_inj (h1.symm.trans h2)
    have hsucc := performed_take_succ hi hsi
    have hmono := performed_take_mono log (show i + 1 ≤ j from hij) ri.1.key
    rw [← hkey] at hsame
    omega
  intro i j ri rj hne hi hj hkey hsome heq ⟨hsi, hsj⟩
  rcases Nat.lt_or_gt_of_ne hne with hlt | hgt
  · exact key hlt hi hj hkey hsome heq hsi hsj
  · exact key hgt hj hi hkey.symm (heq ▸ hsome) heq.symm hsj hsi

end Log

/-! ## What holds in every run -/

namespace Posting

def request : Posting → PostRequest
  | checking request _ _ => request
  | putting request _ => request

def txId : Posting → Nat
  | checking _ _ txId => txId
  | putting _ txId => txId

def call : Posting → Call String Json
  | checking request _ _ => .get request.key
  | putting request _ => .put request.key request.value

end Posting

structure ServerInv (s : HttpServer) : Prop where
  reach : Reachable s.world
  causal : s.world.store.readSelector = .causal
  /-- GET handlers wait with GETs. -/
  gets : ∀ id ∈ s.getting, ∃ tx p r, s.world.pending id = some tx ∧ tx.op = .get p r
  /-- The holder of `mtx` waits with a transaction of its own, for its next call. -/
  post : ∀ p, s.posting = some p → p.txId ∉ s.getting
    ∧ ∃ tx, s.world.pending p.txId = some tx ∧ tx.sessionId = p.request.sessionId
      ∧ tx.op = p.call.newOperation
  etag : ∀ req e txId, s.posting = some (.checking req e txId) → req.etag = some e
  puts : NothingLost s.world.store.history s.postReplies

theorem serverInv_new : ServerInv HttpServer.new where
  reach := .init .causal
  causal := rfl
  gets := by intro id hid; exact absurd hid (by simp [HttpServer.new])
  post := by intro p hp; cases hp
  etag := by intro req e txId hp; cases hp
  puts := by intro k; rfl

section Step

variable {s : HttpServer}

theorem ServerInv.wellFormed (h : ServerInv s) : WellFormed s.world.store :=
  wellFormed_reachable h.reach

/-- The number of PUTs on a key is the number of puts performed on it. -/
theorem ServerInv.count (h : ServerInv s) (k : String) :
    (versionsOf k s.world.store.history).length = (performed s.postReplies k).length := by
  have := congrArg List.length (h.puts k)
  rwa [List.length_map, List.length_map] at this

/-- The holder of `mtx` starts a call to the store. -/
theorem serverInv_begin (h : ServerInv s) {p : Posting} (hid : p.txId = s.world.txCount + 1)
    (hetag : ∀ req e txId, p = .checking req e txId → req.etag = some e) :
    ServerInv { s with
      world := s.world.act (.create p.call p.request.sessionId), posting := some p } where
  reach := h.reach.act (.create p.call p.request.sessionId)
  causal := h.causal
  gets := by
    intro id hid
    obtain ⟨tx, q, r, hp, hop⟩ := h.gets id hid
    exact ⟨tx, q, r, pending_create_of hp _ _, hop⟩
  post := by
    intro p' hp'
    obtain rfl := Option.some.inj hp'
    constructor
    · intro hmem
      obtain ⟨tx, q, r, hp, -⟩ := h.gets _ hmem
      have := pending_le (worldOk_reachable h.reach) hp
      omega
    · rw [hid]
      exact ⟨_, pending_create_self (worldOk_reachable h.reach) _ _, rfl, rfl⟩
  etag := fun req e txId hp => hetag req e txId (Option.some.inj hp)
  puts := h.puts

/-- A GET enters for a handler: nothing is put. -/
theorem serverInv_enter_get (h : ServerInv s) {id : Nat} {tx : Transaction String Json}
    (hp : s.world.pending id = some tx) {p : GetParam String}
    {r : Option (GetResponse String Json)} (hop : tx.op = .get p r) (draws : Draws) :
    (s.world.act (.enter id draws)).store.readSelector = .causal
      ∧ ∀ k, versionsOf k (s.world.act (.enter id draws)).store.history
          = versionsOf k s.world.store.history := by
  rcases enter_get h.wellFormed hp hop draws with ⟨-, -, -, hst⟩ | ⟨i, c, -, -, -, hst⟩
  · rw [hst]
    exact ⟨h.causal, fun k => rfl⟩
  · rw [hst, KvStore.afterGet_readSelector, h.causal, KvStore.afterGet_history]
    exact ⟨rfl, fun k => versionsOf_concat_get k p.key _ tx _⟩

/-- The holder of `mtx` has entered: GET handlers are where they were. -/
theorem gets_enter_post (h : ServerInv s) {p : Posting} (hp : s.posting = some p)
    (draws : Draws) : ∀ id ∈ s.getting, ∃ tx q r,
      (s.world.act (.enter p.txId draws)).pending id = some tx ∧ tx.op = .get q r := by
  intro id hid
  obtain ⟨tx, q, r, hpend, hop⟩ := h.gets id hid
  have hne : id ≠ p.txId := fun he => (h.post p hp).1 (he ▸ hid)
  exact ⟨tx, q, r, by rw [pending_enter_ne hne]; exact hpend, hop⟩

/-- The check has read its version and `mtx` is still held. -/
theorem serverInv_checked (h : ServerInv s) {req : PostRequest} {e : String} {txId : Nat}
    (hp : s.posting = some (.checking req e txId)) (draws : Draws) :
    ServerInv { s with world := s.world.act (.enter txId draws), posting := none } := by
  obtain ⟨-, tx, hpend, -, hop⟩ := h.post _ hp
  obtain ⟨hsel, hver⟩ := serverInv_enter_get h hpend hop draws
  exact
    { reach := h.reach.act (.enter txId draws)
      causal := hsel
      gets := gets_enter_post h hp draws
      post := by intro p hp'; cases hp'
      etag := by intro req e txId hp'; cases hp'
      puts := fun k => (congrArg (List.map Prod.fst) (hver k)).trans (h.puts k) }

/-- A rejected POST leaves the performed puts as they are. -/
theorem serverInv_mismatch (h : ServerInv s) (req : PostRequest) :
    ServerInv { s with postReplies := s.postReplies ++ [(req, etagMismatch)] } where
  reach := h.reach
  causal := h.causal
  gets := h.gets
  post := h.post
  etag := h.etag
  puts := by
    intro k
    rw [performed_concat, if_neg (fun hh => by simp [etagMismatch] at hh)]
    exact h.puts k

/-- A GET handler reaches the store's lock. -/
theorem serverInv_getRequest (uri : Uri) (h : ServerInv s) (message : HttpRequest) :
    ServerInv (s.handleGet uri message) := by
  have hok := worldOk_reachable h.reach
  unfold handleGet
  cases getSessionId message.header with
  | none => exact h
  | some sessionId =>
      dsimp only
      split
      · rename_i key _
        refine ⟨h.reach.act (.create (.get key) sessionId), h.causal, ?_, ?_, h.etag, h.puts⟩
        · intro id hid
          rcases List.mem_append.mp hid with hid | hid
          · obtain ⟨tx, q, r, hp, hop⟩ := h.gets id hid
            exact ⟨tx, q, r, pending_create_of hp _ _, hop⟩
          · obtain rfl := List.mem_singleton.mp hid
            exact ⟨_, _, _, pending_create_self hok _ _, rfl⟩
        · intro p hp
          obtain ⟨hnot, tx, hpend, hs, hop⟩ := h.post p hp
          refine ⟨?_, tx, pending_create_of hpend _ _, hs, hop⟩
          intro hmem
          rcases List.mem_append.mp hmem with hmem | hmem
          · exact hnot hmem
          · have := pending_le hok hpend
            have := List.mem_singleton.mp hmem
            omega
      · exact ⟨h.reach, h.causal, h.gets, h.post, h.etag, h.puts⟩

/-- A GET handler reads the store and replies. -/
theorem serverInv_getEnter (h : ServerInv s) {id : Nat} (hid : id ∈ s.getting) (draws : Draws) :
    ServerInv (s.handleGetEnter id draws) := by
  obtain ⟨tx, q, r, hp, hop⟩ := h.gets id hid
  unfold handleGetEnter
  cases s.world.enterGetWithVersion id draws with
  | none => exact h
  | some result =>
      obtain ⟨hsel, hver⟩ := serverInv_enter_get h hp hop draws
      refine ⟨h.reach.act (.enter id draws), hsel, ?_, ?_, h.etag, ?_⟩
      · intro id' hid'
        obtain ⟨hmem, hne⟩ := List.mem_filter.mp hid'
        obtain ⟨tx, q, r, hp, hop⟩ := h.gets id' hmem
        exact ⟨tx, q, r, by rw [pending_enter_ne (by simpa using hne)]; exact hp, hop⟩
      · intro p hp'
        obtain ⟨hnot, tx, hpend, hs, hop⟩ := h.post p hp'
        have hne : p.txId ≠ id := fun he => hnot (he ▸ hid)
        refine ⟨fun hm => hnot (List.mem_filter.mp hm).1, tx, ?_, hs, hop⟩
        rw [pending_enter_ne hne]
        exact hpend
      · exact fun k => (congrArg (List.map Prod.fst) (hver k)).trans (h.puts k)

/-- A POST handler takes `mtx`. -/
theorem serverInv_post (h : ServerInv s) (message : HttpRequest) :
    ServerInv (s.handlePost message) := by
  unfold handlePost
  cases readPost message with
  | none => exact h
  | some req =>
      dsimp only
      cases he : req.etag with
      | none =>
          exact serverInv_begin h (p := .putting req (s.world.txCount + 1)) rfl
            (fun _ _ _ hp => by cases hp)
      | some e =>
          refine serverInv_begin h (p := .checking req e (s.world.txCount + 1)) rfl ?_
          intro req' e' id' hp
          cases hp
          exact he

/-- The check of the etag rejects the POST or goes on to its put. -/
theorem serverInv_check (h : ServerInv s) {req : PostRequest} {e : String} {txId : Nat}
    (hp : s.posting = some (.checking req e txId)) (draws : Draws) :
    ServerInv (s.handlePostCheck req e txId draws) := by
  have h' := serverInv_checked h hp draws
  unfold handlePostCheck
  cases s.world.enterGetWithVersion txId draws with
  | none => exact h
  | some result =>
      dsimp only
      split
      · exact serverInv_mismatch h' req
      · exact serverInv_begin h'
          (p := .putting req ((s.world.act (.enter txId draws)).txCount + 1)) rfl
          (fun _ _ _ hp => by cases hp)

/-- The put of a POST is the key's next version. -/
theorem serverInv_put (h : ServerInv s) {req : PostRequest} {txId : Nat}
    (hp : s.posting = some (.putting req txId)) (draws : Draws) :
    ServerInv (s.handlePostPut req txId draws) := by
  obtain ⟨hnot, tx, hpend, hs, hop⟩ := h.post _ hp
  obtain ⟨-, hst⟩ := enter_put hpend hop draws
  refine ⟨h.reach.act (.enter txId draws), ?_, gets_enter_post h hp draws, ?_, ?_, ?_⟩
  · exact (congrArg KvStore.readSelector hst).trans h.causal
  · intro p' hp'; cases hp'
  · intro req' e' id' hp'; cases hp'
  · intro k
    show (versionsOf k (s.world.act (.enter txId draws)).store.history).map Prod.fst
      = (performed (s.postReplies ++ [(req, postSuccess)]) k).map (·.1.value)
    rw [show (s.world.act (.enter txId draws)).store = _ from hst,
      KvStore.putLocked_history, versionsOf_concat_put, performed_concat]
    have hk := h.puts k
    by_cases hkey : k = req.key
    · rw [if_pos hkey, if_pos ⟨hkey.symm, rfl⟩, List.map_append, List.map_append, hk]
      rfl
    · rw [if_neg hkey, if_neg (fun hh => hkey hh.1.symm)]
      exact hk

/-- **Every step of the server** keeps the invariant. -/
theorem serverInv_act (uri : Uri) (h : ServerInv s) (a : Step) : ServerInv (s.act uri a) := by
  cases a with
  | getRequest message => exact serverInv_getRequest uri h message
  | getEnter id draws =>
      simp only [HttpServer.act]
      split
      · exact serverInv_getEnter h ‹_› draws
      · exact h
  | postRequest message =>
      simp only [HttpServer.act]
      cases s.posting with
      | some p => exact h
      | none => exact serverInv_post h message
  | postEnter draws =>
      simp only [HttpServer.act]
      cases hp : s.posting with
      | none => exact h
      | some p =>
          cases p with
          | checking req e txId => exact serverInv_check h hp draws
          | putting req txId => exact serverInv_put h hp draws

/-! ## One check -/

/-- What the check may read: a version from the session's floor up, or `0` if there is none. -/
theorem check_reads (h : ServerInv s) {req : PostRequest} {e : String} {txId : Nat}
    (hp : s.posting = some (.checking req e txId)) (draws : Draws) :
    ∃ result, s.world.enterGetWithVersion txId draws = some result
      ∧ (((versionsOf req.key s.world.store.history).length = 0 ∧ versionRead result = 0)
        ∨ (max 1 (sessionFloor s.world.store.history req.sessionId req.key) ≤ versionRead result
          ∧ versionRead result ≤ (versionsOf req.key s.world.store.history).length)) := by
  obtain ⟨-, tx, hpend, hs, hop⟩ := h.post _ hp
  rcases enter_get h.wellFormed hpend hop draws with ⟨hv, hres, -⟩ | ⟨i, c, ha, hres, -⟩
  · exact ⟨_, hres, Or.inl ⟨congrArg List.length hv, rfl⟩⟩
  · have hlt := (List.getElem?_eq_some_iff.mp ha.1).1
    have hfloor : sessionFloor s.world.store.history req.sessionId req.key ≤ i + 1 := by
      have := ha.2.1
      rw [hs] at this
      exact this
    exact ⟨_, hres, Or.inr ⟨Nat.max_le.mpr ⟨Nat.le_add_left 1 i, hfloor⟩, hlt⟩⟩

/-- And each of them is read for some draws. -/
theorem check_reads_any (h : ServerInv s) {req : PostRequest} {e : String} {txId : Nat}
    (hp : s.posting = some (.checking req e txId)) {j : Nat}
    (hj : max 1 (sessionFloor s.world.store.history req.sessionId req.key) ≤ j)
    (hjn : j ≤ (versionsOf req.key s.world.store.history).length) :
    ∃ draws result, s.world.enterGetWithVersion txId draws = some result
      ∧ versionRead result = j := by
  obtain ⟨-, tx, hpend, hs, hop⟩ := h.post _ hp
  obtain ⟨h1, hf⟩ := Nat.max_le.mp hj
  have hlt : j - 1 < (versionsOf req.key s.world.store.history).length := by omega
  have ha : Allowed s.world.store tx.sessionId req.key (j - 1)
      (versionsOf req.key s.world.store.history)[j - 1] :=
    .of_weak (by rw [h.causal]; rfl) (List.getElem?_eq_getElem hlt)
      (by rw [hs, Nat.sub_add_cancel h1]; exact hf)
  obtain ⟨draws, hres⟩ := enter_get_pick h.wellFormed hpend hop ha
  exact ⟨draws, _, hres, by show j - 1 + 1 = j; omega⟩

theorem check_passes_iff (uri : Uri) {req : PostRequest} {e : String} {txId : Nat}
    (hp : s.posting = some (.checking req e txId)) {draws : Draws}
    {result : Except (StoreException String) (Json × Nat)}
    (hres : s.world.enterGetWithVersion txId draws = some result) :
    (∃ id, (s.act uri (.postEnter draws)).posting = some (.putting req id))
      ↔ toString (versionRead result) = e := by
  simp only [HttpServer.act, hp, handlePostCheck, hres]
  by_cases he : toString (versionRead result) = e
  · rw [if_neg (not_not.mpr he)]
    exact ⟨fun _ => he, fun _ => ⟨_, rfl⟩⟩
  · rw [if_pos he]
    constructor
    · rintro ⟨id, hid⟩; cases hid
    · exact fun hh => absurd hh he

/-- **A check accepts exactly the latest version's numeral**, whatever the draws, iff the
state it is made from is certain. -/
theorem check_exact_iff (uri : Uri) (h : ServerInv s) {req : PostRequest} {e : String}
    {txId : Nat} (hp : s.posting = some (.checking req e txId)) :
    (∀ draws, (∃ id, (s.act uri (.postEnter draws)).posting = some (.putting req id))
        ↔ e = toString (versionsOf req.key s.world.store.history).length)
      ↔ CheckCertain s.world.store.history req.sessionId req.key e := by
  constructor
  · intro hall
    by_contra hno
    unfold CheckCertain at hno
    push Not at hno
    obtain ⟨hgap, j, hj, hjn, hej⟩ := hno
    -- the etag is the latest version's, or else the version it names could be read
    obtain ⟨draws, result, hres, hread⟩ := check_reads_any h hp hj hjn
    have he := (hall draws).mp ((check_passes_iff uri hp hres).mpr (by rw [hread, hej]))
    -- then the floor's version could be read instead
    obtain ⟨draws', result', hres', hread'⟩ :=
      check_reads_any h hp (Nat.le_refl _) (Nat.le_of_lt hgap)
    have hpass := (check_passes_iff uri hp hres').mp ((hall draws').mpr he)
    rw [hread', he] at hpass
    have := toString_inj hpass
    omega
  · intro hcert draws
    obtain ⟨result, hres, hread⟩ := check_reads h hp draws
    rw [check_passes_iff uri hp hres]
    rcases hread with ⟨h0, hv⟩ | ⟨hlo, hhi⟩
    · rw [hv, h0]
      exact eq_comm
    · rcases hcert with hle | hne
      · rw [show versionRead result = _ from Nat.le_antisymm hhi (Nat.le_trans hle hlo)]
        exact eq_comm
      · constructor
        · intro he; exact absurd he.symm (hne _ hlo hhi)
        · intro he; exact absurd he (hne _ (Nat.le_trans hlo hhi) (Nat.le_refl _))

/-! ## Certain runs -/

/-- The log compares and swaps, and so will the put under way. -/
structure CertainLog (s : HttpServer) : Prop where
  log : ComparesAndSwaps s.postReplies
  putting : ∀ req txId, s.posting = some (.putting req txId) → ∀ e, req.etag = some e →
    e = toString (performed s.postReplies req.key).length

theorem certainLog_new : CertainLog HttpServer.new where
  log := by intro i req resp e hi; cases hi
  putting := by intro req txId hp; cases hp

/-- A check made from a certain state decides as the log asks. -/
theorem certainLog_check (uri : Uri) (hs : ServerInv s) (h : CertainLog s) {req : PostRequest}
    {e : String} {txId : Nat} (hp : s.posting = some (.checking req e txId)) (draws : Draws)
    (hc : CheckCertain s.world.store.history req.sessionId req.key e) :
    CertainLog (s.act uri (.postEnter draws)) := by
  obtain ⟨result, hres, -⟩ := check_reads hs hp draws
  have hexact := (check_exact_iff uri hs hp).mpr hc draws
  rw [check_passes_iff uri hp hres, hs.count] at hexact
  have hetag := hs.etag req e txId hp
  simp only [HttpServer.act, hp, handlePostCheck, hres]
  by_cases he : toString (versionRead result) = e
  · rw [if_neg (not_not.mpr he)]
    refine ⟨h.log, ?_⟩
    intro req' id hp' e' he'
    cases hp'
    rw [hetag] at he'
    exact Option.some.inj he' ▸ hexact.mp he
  · rw [if_pos he]
    refine ⟨comparesAndSwaps_concat h.log ?_, by intro req' id hp'; cases hp'⟩
    intro e' he'
    rw [hetag] at he'
    rw [← Option.some.inj he', ← hexact]
    exact ⟨fun hs => absurd hs (by decide), fun hh => absurd hh he⟩

theorem certainLog_act (uri : Uri) (hs : ServerInv s) (h : CertainLog s) (a : Step)
    (ha : StepCertain s a) : CertainLog (s.act uri a) := by
  cases a with
  | getRequest message =>
      simp only [HttpServer.act, handleGet]
      split
      · exact ⟨h.log, h.putting⟩
      · split
        · exact ⟨h.log, h.putting⟩
        · exact ⟨h.log, h.putting⟩
  | getEnter id draws =>
      simp only [HttpServer.act, handleGetEnter]
      split
      · split
        · exact ⟨h.log, h.putting⟩
        · exact ⟨h.log, h.putting⟩
      · exact ⟨h.log, h.putting⟩
  | postRequest message =>
      simp only [HttpServer.act, handlePost]
      split
      · exact ⟨h.log, h.putting⟩
      · split
        · exact ⟨h.log, h.putting⟩
        · split
          · -- without an etag there is nothing to compare
            rename_i hnone
            refine ⟨h.log, ?_⟩
            intro req' id hp e he
            cases hp
            rw [hnone] at he
            cases he
          · exact ⟨h.log, by intro req' id hp; cases hp⟩
  | postEnter draws =>
      cases hp : s.posting with
      | none =>
          simp only [HttpServer.act, hp]
          exact ⟨h.log, by intro req id hp'; rw [hp] at hp'; cases hp'⟩
      | some p =>
          cases p with
          | checking req e txId => exact certainLog_check uri hs h hp draws (ha req e txId hp)
          | putting req txId =>
              simp only [HttpServer.act, hp, handlePostPut]
              refine ⟨comparesAndSwaps_concat h.log ?_, by intro req' id hp'; cases hp'⟩
              intro e he
              exact ⟨fun _ => h.putting req txId hp e he, fun _ => rfl⟩

end Step

theorem serverInv_run (uri : Uri) (steps : List Step) {s : HttpServer} (h : ServerInv s) :
    ServerInv (s.run uri steps) := by
  induction steps generalizing s with
  | nil => exact h
  | cons a steps ih => exact ih (serverInv_act uri h a)

theorem certainLog_run (uri : Uri) (steps : List Step) {s : HttpServer} (hs : ServerInv s)
    (h : CertainLog s) (hc : RunCertain uri s steps) : CertainLog (s.run uri steps) := by
  induction steps generalizing s with
  | nil => exact h
  | cons a steps ih => exact ih (serverInv_act uri hs a) (certainLog_act uri hs h a hc.1) hc.2

theorem runCertain_take {uri : Uri} {s : HttpServer} {steps : List Step}
    (h : RunCertain uri s steps) (n : Nat) : RunCertain uri s (steps.take n) := by
  induction steps generalizing s n with
  | nil => rw [List.take_nil]; trivial
  | cons a steps ih =>
      cases n with
      | zero => trivial
      | succ n => exact ⟨h.1, ih h.2 n⟩

/-- **When conditional POSTs compare and swap.** In a run that checks etags only from
certain states, in every state reached the POSTs answered so far compared and swapped, no
etag was used twice on a key, and the puts performed are the versions there are, in order.
And the condition cannot be dropped: in any state reached, a check decides as comparing
with the latest version would for all draws iff that state is certain. -/
theorem etag_compare_and_swap (uri : Uri) :
    (∀ steps, RunCertain uri HttpServer.new steps → ∀ n,
        ComparesAndSwaps (HttpServer.new.run uri (steps.take n)).postReplies
        ∧ EtagsUsedOnce (HttpServer.new.run uri (steps.take n)).postReplies
        ∧ NothingLost (HttpServer.new.run uri (steps.take n)).world.store.history
            (HttpServer.new.run uri (steps.take n)).postReplies)
      ∧ ∀ steps req etag txId,
          (HttpServer.new.run uri steps).posting = some (.checking req etag txId) →
          ((∀ draws, (∃ id, ((HttpServer.new.run uri steps).act uri (.postEnter draws)).posting
                = some (.putting req id))
              ↔ etag = toString
                (versionsOf req.key (HttpServer.new.run uri steps).world.store.history).length)
            ↔ CheckCertain (HttpServer.new.run uri steps).world.store.history req.sessionId
                req.key etag) := by
  constructor
  · intro steps hc n
    have hlog := (certainLog_run uri (steps.take n) serverInv_new certainLog_new
      (runCertain_take hc n)).log
    exact ⟨hlog, etagsUsedOnce hlog, (serverInv_run uri (steps.take n) serverInv_new).puts⟩
  · intro steps req etag txId hp
    exact check_exact_iff uri (serverInv_run uri steps serverInv_new) hp

/-- A URI library for the runs below, none of which decodes a path. -/
def plainUri : Uri where
  decode := id
  splitPath path := (path.splitOn "/").filter (fun part => part ≠ "")

/-- A POST to the state store. -/
def postMessage (session key : String) (value : Int) (etag : List (String × Json)) :
    HttpRequest where
  header name := if name = "session-id" then some session else none
  path := "/v1.0/state/store"
  json := some (.object ([("key", .string key), ("value", .number value)] ++ etag))

/-- Session 1 posts a key and then updates the version it wrote. -/
def ownUpdate : List Step :=
  [.postRequest (postMessage "1" "k" 10 []), .postEnter zeroDraws,
    .postRequest (postMessage "1" "k" 11 [("etag", .string "1")]), .postEnter zeroDraws,
    .postEnter zeroDraws]

/-- Session 1 posts a key twice. Sessions 2 and 3 then update version 1 of it, which is what
their checks are given. -/
def staleEtag : List Step :=
  [.postRequest (postMessage "1" "k" 10 []), .postEnter zeroDraws,
    .postRequest (postMessage "1" "k" 11 []), .postEnter zeroDraws,
    .postRequest (postMessage "2" "k" 12 [("etag", .string "1")]), .postEnter zeroDraws,
    .postEnter zeroDraws,
    .postRequest (postMessage "3" "k" 13 [("etag", .string "1")]), .postEnter zeroDraws,
    .postEnter zeroDraws]

theorem etag_compare_and_swap_both_ways :
    ComparesAndSwaps (HttpServer.new.run plainUri (ownUpdate.take 5)).postReplies
      ∧ ¬ ∀ draws, (∃ id, ((HttpServer.new.run plainUri (staleEtag.take 5)).act plainUri
            (.postEnter draws)).posting = some (.putting ⟨2, "k", .number 12, some "1"⟩ id))
          ↔ "1" = toString (versionsOf "k"
            (HttpServer.new.run plainUri (staleEtag.take 5)).world.store.history).length := by
  constructor
  · refine ((etag_compare_and_swap plainUri).1 ownUpdate ⟨trivial, ?_, trivial, ?_, ?_, trivial⟩
      5).1
    · intro req etag txId hp
      cases hp
    · intro req etag txId hp
      cases hp
      exact Or.inl (by decide)
    · intro req etag txId hp
      cases hp
  · rw [(etag_compare_and_swap plainUri).2 (staleEtag.take 5) ⟨2, "k", .number 12, some "1"⟩ "1" 3
      rfl]
    unfold CheckCertain
    push Not
    exact ⟨by decide, 1, by decide, by decide, by decide⟩

theorem etag_compare_and_swap_violated :
    ¬ ∀ steps : List Step, ComparesAndSwaps (HttpServer.new.run plainUri steps).postReplies
      ∧ EtagsUsedOnce (HttpServer.new.run plainUri steps).postReplies := by
  intro hall
  have hlog := (hall staleEtag).1 2 _ _ "1" rfl rfl
  exact absurd (hlog.mp rfl) (by decide)

end MockDB
