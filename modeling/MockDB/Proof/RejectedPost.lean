import MockDB.Proof.Etag
import MockDB.Proof.Refine

/-!
# Rejected POSTs

`handle_post` reads the version that it compares its etag with as any GET of its session
would, and the store commits that read. So a POST that is rejected has no effect on the
values there are, but its session has now been given a version, and is not given an older
one of the key again, though the reply names none.
-/

namespace MockDB

open HttpServer

/-- A GET of `key` by session `s` may return `v` and the version number `n`. -/
def World.MayReturn {K V : Type} [DecidableEq K] (w : World K V) (s : Int) (key : K) (v : V)
    (n : Nat) : Prop :=
  ∃ draws, (w.getWithVersion key s draws).1 = .ok (v, n)

section MayReturn

variable {K V : Type} [DecidableEq K] {w w' : World K V}

/-- Under a weak selection it is what the session may read off the registers. -/
theorem mayReturn_iff (h : Reachable w) (hw : w.store.readSelector.isWeak = true) {s : Int}
    {key : K} {v : V} {n : Nat} : w.MayReturn s key v n
      ↔ ∃ i, n = i + 1 ∧ (registers w.store.history).MayRead s key i v := by
  constructor
  · rintro ⟨draws, hres⟩
    rcases registers_get h key s draws with ⟨-, herr, -⟩ | ⟨i, r, hm, hn, -, hok, -⟩
    · simp [World.getWithVersion, herr, Except.map] at hres
    · have hpair : (r.value, r.versionNumber) = (v, n) := by
        simpa [World.getWithVersion, hok, Except.map] using hres
      obtain ⟨rfl, rfl⟩ := Prod.mk.inj hpair
      exact ⟨i, hn, hm⟩
  · rintro ⟨i, rfl, hm⟩
    obtain ⟨draws, r, hok, rfl, hn, -⟩ := get_of_mayRead h hw hm
    refine ⟨draws, ?_⟩
    rw [← hn]
    simp [World.getWithVersion, hok, Except.map]

/-- What may be returned is a matter of the history. -/
theorem mayReturn_congr (h : Reachable w) (h' : Reachable w')
    (hw : w.store.readSelector.isWeak = true) (hstore : w'.store = w.store) {s : Int} {key : K}
    {v : V} {n : Nat} : w'.MayReturn s key v n ↔ w.MayReturn s key v n := by
  rw [mayReturn_iff h hw, mayReturn_iff h' (hstore.symm ▸ hw), hstore]

/-- **A GET that enters** takes from its session the versions older than the one it is given. -/
theorem mayReturn_enter_get (h : Reachable w) (hw : w.store.readSelector = .causal) {txId : Nat}
    {tx : Transaction K V} (hp : w.pending txId = some tx) {p : GetParam K}
    {r : Option (GetResponse K V)} (hop : tx.op = .get p r) (draws : Draws) :
    (w.act (.enter txId draws)).store.kvMap = w.store.kvMap
      ∧ ∃ result, w.enterGetWithVersion txId draws = some result
        ∧ ∀ s key v n, (w.act (.enter txId draws)).MayReturn s key v n
          ↔ w.MayReturn s key v n ∧ ∀ v' m, result = .ok (v', m) →
            s = tx.sessionId → key = p.key → m ≤ n := by
  have hweak : w.store.readSelector.isWeak = true := by rw [hw]; rfl
  have hr' := h.act (.enter txId draws)
  rcases enter_get (wellFormed_reachable h) hp hop draws with
    ⟨-, hres, -, hst⟩ | ⟨i, c, ha, hres, -, hst⟩
  · refine ⟨by rw [hst], _, hres, fun s key v n => ?_⟩
    rw [mayReturn_congr h hr' hweak hst]
    exact (and_iff_left nofun).symm
  · refine ⟨by rw [hst]; rfl, _, hres, fun s key v n => ?_⟩
    have hweak' : (w.act (.enter txId draws)).store.readSelector.isWeak = true := by
      rw [hst, KvStore.afterGet_readSelector, hw]
      rfl
    have hread := WellFormed.mayRead_of_allowed ha
    rw [mayReturn_iff hr' hweak', mayReturn_iff h hweak, hst, WellFormed.registers_afterGet tx ha]
    simp only [SessionRegister.mayRead_read_iff hread]
    constructor
    · rintro ⟨j, rfl, hj, hle⟩
      refine ⟨⟨j, rfl, hj⟩, fun v' m hok hs hk => ?_⟩
      obtain ⟨-, rfl⟩ := Prod.mk.inj (Except.ok.inj hok)
      exact Nat.succ_le_succ (hle hs hk)
    · rintro ⟨⟨j, rfl, hj⟩, hle⟩
      exact ⟨j, rfl, hj, fun hs hk => Nat.le_of_succ_le_succ (hle _ _ rfl hs hk)⟩

end MayReturn

/-- A POST request takes `mtx`, and may make a transaction, but enters nothing. -/
theorem postRequest_store (uri : Uri) (s : HttpServer) (message : HttpRequest) :
    (s.act uri (.postRequest message)).world.store = s.world.store := by
  simp only [HttpServer.act, handlePost]
  cases s.posting with
  | some p => rfl
  | none =>
      cases readPost message with
      | none => rfl
      | some request => cases h : request.etag <;> simp only [h] <;> rfl

/-- A check that rejects has done nothing but read. -/
theorem check_rejects_world {s : HttpServer} (uri : Uri) {req : PostRequest} {etag : String}
    {txId : Nat} (hp : s.posting = some (.checking req etag txId)) {draws : Draws}
    {result : Except (StoreException String) (Json × Nat)}
    (hres : s.world.enterGetWithVersion txId draws = some result)
    (hrej : (s.act uri (.postEnter draws)).postReplies = s.postReplies ++ [(req, etagMismatch)]) :
    (s.act uri (.postEnter draws)).world = s.world.act (.enter txId draws) := by
  simp only [HttpServer.act, hp, handlePostCheck, hres] at hrej ⊢
  by_cases he : toString (versionRead result) = etag
  · -- a check that goes on to the put does not reply yet
    rw [if_neg (not_not.mpr he)] at hrej
    exact absurd hrej (by simp [beginPut])
  · rw [if_pos he]

/-- **What a rejected POST does.** Up to its check it does nothing to the store. The check
leaves `kv_map` as it is, and of what GETs may return it takes away one thing: from the
session of the POST, on its key, the versions older than the one that the check was given. -/
theorem rejected_post (uri : Uri) (steps : List Step) :
    (∀ message,
        ((HttpServer.new.run uri steps).act uri (.postRequest message)).world.store
            = (HttpServer.new.run uri steps).world.store
          ∧ ∀ session key v n,
            ((HttpServer.new.run uri steps).act uri (.postRequest message)).world.MayReturn
                session key v n
              ↔ (HttpServer.new.run uri steps).world.MayReturn session key v n)
      ∧ ∀ req etag txId draws,
        (HttpServer.new.run uri steps).posting = some (.checking req etag txId) →
        ((HttpServer.new.run uri steps).act uri (.postEnter draws)).postReplies
          = (HttpServer.new.run uri steps).postReplies ++ [(req, etagMismatch)] →
        ((HttpServer.new.run uri steps).act uri (.postEnter draws)).world.store.kvMap
            = (HttpServer.new.run uri steps).world.store.kvMap
          ∧ ∃ result,
            (HttpServer.new.run uri steps).world.enterGetWithVersion txId draws = some result
            ∧ ∀ session key v n,
              ((HttpServer.new.run uri steps).act uri (.postEnter draws)).world.MayReturn
                  session key v n
                ↔ (HttpServer.new.run uri steps).world.MayReturn session key v n
                  ∧ (session = req.sessionId → key = req.key → versionRead result ≤ n) := by
  have h := serverInv_run uri steps serverInv_new
  constructor
  · intro message
    have hstore := postRequest_store uri (HttpServer.new.run uri steps) message
    refine ⟨hstore, fun session key v n => ?_⟩
    exact mayReturn_congr h.reach (serverInv_act uri h (.postRequest message)).reach
      (by rw [h.causal]; rfl) hstore
  · intro req etag txId draws hp hrej
    obtain ⟨-, tx, hpend, hs, hop⟩ := h.post _ hp
    obtain ⟨hmap, result, hres, hread⟩ := mayReturn_enter_get h.reach h.causal hpend hop draws
    rw [check_rejects_world uri hp hres hrej]
    refine ⟨hmap, result, hres, fun session key v n => (hread session key v n).trans ?_⟩
    rw [hs]
    refine and_congr_right fun _ => ?_
    cases result with
    | error e => exact iff_of_true nofun fun _ _ => Nat.zero_le n
    | ok pair =>
        refine ⟨fun hle => hle pair.1 pair.2 rfl, fun hle v' m hok => ?_⟩
        obtain ⟨-, rfl⟩ := Prod.mk.inj (Except.ok.inj hok)
        exact hle

/-- Each selection takes the newest version. -/
def newestDraws : Draws := fun n => ⟨n, n.lt_succ_self⟩

/-- Session 1 posts a key twice. -/
def twoVersions : List Step :=
  [.postRequest (postMessage "1" "k" 10 []), .postEnter zeroDraws,
    .postRequest (postMessage "1" "k" 11 []), .postEnter zeroDraws]

/-- Session 2 then posts it with the etag of no version. -/
def wrongEtag : Step := .postRequest (postMessage "2" "k" 12 [("etag", .string "7")])

theorem rejected_post_wrongEtag :
    ((HttpServer.new.run plainUri (twoVersions ++ [wrongEtag])).act plainUri
          (.postEnter newestDraws)).world.store.kvMap
        = (HttpServer.new.run plainUri (twoVersions ++ [wrongEtag])).world.store.kvMap
      ∧ ∃ result,
        (HttpServer.new.run plainUri (twoVersions ++ [wrongEtag])).world.enterGetWithVersion 3
            newestDraws = some result
        ∧ ∀ session key v n,
          ((HttpServer.new.run plainUri (twoVersions ++ [wrongEtag])).act plainUri
              (.postEnter newestDraws)).world.MayReturn session key v n
            ↔ (HttpServer.new.run plainUri (twoVersions ++ [wrongEtag])).world.MayReturn
                session key v n
              ∧ (session = 2 → key = "k" → versionRead result ≤ n) :=
  (rejected_post plainUri (twoVersions ++ [wrongEtag])).2 ⟨2, "k", .number 12, some "7"⟩ "7" 3
    newestDraws rfl rfl

/-- Before its POST is rejected session 2 may be given the first version, and after it not. -/
theorem rejected_post_violated :
    (HttpServer.new.run plainUri (twoVersions ++ [wrongEtag, .postEnter newestDraws])).postReplies
        = (HttpServer.new.run plainUri twoVersions).postReplies
          ++ [(⟨2, "k", .number 12, some "7"⟩, etagMismatch)]
      ∧ (HttpServer.new.run plainUri twoVersions).world.MayReturn 2 "k" (.number 10) 1
      ∧ ¬ (HttpServer.new.run plainUri
          (twoVersions ++ [wrongEtag, .postEnter newestDraws])).world.MayReturn 2 "k"
            (.number 10) 1 := by
  refine ⟨rfl, ⟨zeroDraws, rfl⟩, ?_⟩
  have h := serverInv_run plainUri (twoVersions ++ [wrongEtag, .postEnter newestDraws])
    serverInv_new
  rw [mayReturn_iff h.reach (by rw [h.causal]; rfl)]
  rintro ⟨i, hi, -, hfloor⟩
  obtain rfl : i = 0 := by omega
  exact absurd hfloor (by decide)

end MockDB
