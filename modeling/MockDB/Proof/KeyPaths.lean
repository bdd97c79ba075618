import MockDB.Lib.PercentEncoding
import MockDB.Proof.Etag
import Mathlib.Data.Bool.AllAny

/-!
# Keys in paths

A POST takes its key from the JSON body as it stands, a GET from the path of its URI. The
handler decodes the path before it splits it. So the slashes of a key, though encoded, cut it
up like those of the path: a key that has any is never looked up, and what is left of it may
be another key.
-/

namespace MockDB

open HttpServer PercentEncoding

/-- What `uri::decode` and `uri::split_path` are relied on for. -/
structure Uri.Lawful (uri : Uri) : Prop where
  /-- Decoding undoes percent-encoding. -/
  decode : ∀ text s : String, Encodes text.toList s.toList → uri.decode text = s
  /-- A path is split at the slashes, and empty segments are dropped. -/
  splitPath : ∀ path : String, uri.splitPath path
    = (segments '/' path.toList).map String.ofList

/-- The reserved characters of a URI. -/
def reserved : List Char := ":/?#[]@!$&'()*+,;=".toList

/-- An encoder that leaves no reserved character as it is. -/
structure KeyEncoder extends Encoder where
  reserved : ∀ c ∈ MockDB.reserved, keeps c = false

/-- The name of a state store, a segment of a path as it stands. -/
structure StoreName where
  name : String
  nonempty : name ≠ ""
  plain : ∀ c ∈ name.toList, Plain c ∧ c ≠ '/'

/-- The path that a client GETs a key at. -/
def keyPath (enc : KeyEncoder) (store : StoreName) (key : String) : String :=
  "/v1.0/state/" ++ store.name ++ "/" ++ String.ofList (enc.encode key.toList)

section Path

variable {uri : Uri} (enc : KeyEncoder) (store : StoreName) (key : String)

theorem decode_keyPath (hlaw : uri.Lawful) :
    uri.decode (keyPath enc store key) = "/v1.0/state/" ++ store.name ++ "/" ++ key := by
  refine hlaw.decode _ _ ?_
  unfold keyPath
  simp only [String.toList_append, String.toList_ofList]
  have hstate : Encodes "/v1.0/state/".toList "/v1.0/state/".toList :=
    encodes_self (List.all_iff_forall_prop.mp (by decide))
  have hslash : Encodes "/".toList "/".toList :=
    encodes_self (List.all_iff_forall_prop.mp (by decide))
  have hstore := encodes_self fun c hc => (store.plain c hc).1
  exact ((hstate.append hstore).append hslash).append (enc.encodes key.toList)

/-- The segments that a GET finds: those in front of the key, and what the key is cut into. -/
theorem splitPath_keyPath (hlaw : uri.Lawful) :
    uri.splitPath (uri.decode (keyPath enc store key))
      = "v1.0" :: "state" :: store.name :: (segments '/' key.toList).map String.ofList := by
  rw [decode_keyPath enc store key hlaw, hlaw.splitPath]
  have hpath : ("/v1.0/state/" ++ store.name ++ "/" ++ key).toList
      = '/' :: ("v1.0".toList ++ '/' :: ("state".toList ++ '/' ::
        (store.name.toList ++ '/' :: key.toList))) := by
    simp [String.toList_append]
  have hstore : store.name.toList ≠ [] := by
    rw [ne_eq, String.toList_eq_nil_iff]
    exact store.nonempty
  rw [hpath, segments_sep_cons, segments_append (by decide) (by decide),
    segments_append (by decide) (by decide),
    segments_append (fun hmem => (store.plain _ hmem).2 rfl) hstore]
  simp only [List.map_cons, String.ofList_toList]

end Path

/-! ## GET requests -/

/-- The handler of a GET asks the store for `key`. -/
def LooksUp (uri : Uri) (s : HttpServer) (message : HttpRequest) (key : String) : Prop :=
  ∃ sessionId, getSessionId message.header = some sessionId
    ∧ (s.act uri (.getRequest message)).world = s.world.act (.create (.get key) sessionId)

section LooksUp

variable {uri : Uri} {s : HttpServer} {message : HttpRequest} {key : String} {sessionId : Int}

theorem create_get_inj {w : World String Json} {key' : String} {sessionId' : Int}
    (h : w.act (.create (.get key) sessionId) = w.act (.create (.get key') sessionId')) :
    key = key' := by
  have hwaiting := List.append_cancel_left (congrArg World.waiting h)
  have hop := congrArg Transaction.op (List.singleton_inj.mp hwaiting)
  exact congrArg GetParam.key (Operation.get.inj hop).1

theorem getRequest_of_path (hsession : getSessionId message.header = some sessionId)
    {a b c : String} (hpath : uri.splitPath (uri.decode message.path) = [a, b, c, key]) :
    s.act uri (.getRequest message)
      = { s with
          world := s.world.act (.create (.get key) sessionId)
          getting := s.getting ++ [s.world.txCount + 1] } := by
  simp only [HttpServer.act, handleGet, hsession, hpath]

/-- It is the last of four segments that is looked up. -/
theorem looksUp_iff (hsession : getSessionId message.header = some sessionId) :
    LooksUp uri s message key
      ↔ ∃ a b c, uri.splitPath (uri.decode message.path) = [a, b, c, key] := by
  constructor
  · rintro ⟨sessionId', -, hworld⟩
    simp only [HttpServer.act, handleGet, hsession] at hworld
    split at hworld
    · next a b c key' hpath =>
        obtain rfl := create_get_inj hworld
        exact ⟨a, b, c, hpath⟩
    · -- a bad request makes no transaction
      have hcount := congrArg World.txCount hworld
      exact absurd hcount (Nat.ne_of_lt (Nat.lt_succ_self _))
  · rintro ⟨a, b, c, hpath⟩
    exact ⟨sessionId, hsession, by rw [getRequest_of_path hsession hpath]⟩

/-- **At the path of a key** a GET looks up what the key is without the slashes around it, if
there is no slash inside. -/
theorem looksUp_keyPath_iff (hlaw : uri.Lawful) (enc : KeyEncoder) (store : StoreName)
    {k : String} (hpath : message.path = keyPath enc store k)
    (hsession : getSessionId message.header = some sessionId) :
    LooksUp uri s message key
      ↔ key ≠ "" ∧ '/' ∉ key.toList ∧ Padded '/' key.toList k.toList := by
  have hnonempty : key.toList ≠ [] ↔ key ≠ "" := not_congr String.toList_eq_nil_iff
  rw [looksUp_iff hsession, hpath, splitPath_keyPath enc store k hlaw, ← hnonempty,
    ← segments_eq_singleton_iff]
  constructor
  · rintro ⟨a, b, c, heq⟩
    have hmap : (segments '/' k.toList).map String.ofList = [key] := by
      simpa using (List.cons.inj (List.cons.inj (List.cons.inj heq).2).2).2
    obtain ⟨part, hpart, hkey⟩ := List.map_eq_singleton_iff.mp hmap
    rw [hpart, ← hkey, String.toList_ofList]
  · intro hsegments
    exact ⟨_, _, _, by rw [hsegments, List.map_singleton, String.ofList_toList]⟩

end LooksUp

/-! ## A POST on a fresh server, and then a GET -/

/-- A server that has answered one POST. -/
def afterPost (uri : Uri) (post : HttpRequest) (draws : Draws) : HttpServer :=
  (HttpServer.new.act uri (.postRequest post)).act uri (.postEnter draws)

/-- What a GET by the session of the POST `req` is to do. -/
structure Fetched (uri : Uri) (post get : HttpRequest) (req : PostRequest)
    (draws draws' : Draws) : Prop where
  /-- It looks up the key that was posted. -/
  looksUp : LooksUp uri (afterPost uri post draws) get req.key
  /-- And it returns the value, which is the first version. -/
  returns : (((afterPost uri post draws).act uri (.getRequest get)).act uri
        (.getEnter ((afterPost uri post draws).world.txCount + 1) draws')).getReplies
      = [⟨200, some 1, some req.value⟩]

section Fetch

variable {uri : Uri} {post get : HttpRequest} {req : PostRequest}

theorem serverInv_afterPost (uri : Uri) (post : HttpRequest) (draws : Draws) :
    ServerInv (afterPost uri post draws) :=
  serverInv_act uri (serverInv_act uri serverInv_new _) _

/-- The value posted is the one version of its key, and no GET has been answered yet. -/
theorem afterPost_eq (uri : Uri) (hread : readPost post = some req) (hetag : req.etag = none)
    (draws : Draws) : (afterPost uri post draws).getReplies = []
      ∧ versionsOf req.key (afterPost uri post draws).world.store.history
        = [(req.value, 1)] := by
  have hact : HttpServer.new.act uri (.postRequest post) = HttpServer.new.beginPut req := by
    show HttpServer.new.handlePost post = _
    simp only [handlePost, hread, hetag]
  have hpend : (HttpServer.new.beginPut req).world.pending 1
      = some ⟨1, req.sessionId, .put ⟨req.key, req.value⟩ none⟩ := rfl
  obtain ⟨-, hst⟩ := enter_put hpend rfl draws
  unfold afterPost
  rw [hact]
  refine ⟨rfl, ?_⟩
  show versionsOf req.key ((HttpServer.new.beginPut req).world.act (.enter 1 draws)).store.history
    = _
  rw [hst, KvStore.putLocked_history, versionsOf_concat_put, if_pos rfl]
  rfl

/-- **A GET that looks up the posted key** returns the posted value. -/
theorem returns_of_looksUp (hread : readPost post = some req) (hetag : req.etag = none)
    (draws draws' : Draws) {sessionId : Int} (hsession : getSessionId get.header = some sessionId)
    (hlook : LooksUp uri (afterPost uri post draws) get req.key) :
    (((afterPost uri post draws).act uri (.getRequest get)).act uri
        (.getEnter ((afterPost uri post draws).world.txCount + 1) draws')).getReplies
      = [⟨200, some 1, some req.value⟩] := by
  obtain ⟨hreplies, hversions⟩ := afterPost_eq uri hread hetag draws
  have hinv := serverInv_afterPost uri post draws
  obtain ⟨a, b, c, hpath⟩ := (looksUp_iff hsession).mp hlook
  generalize afterPost uri post draws = s at hreplies hversions hinv ⊢
  rw [getRequest_of_path hsession hpath]
  have hok := worldOk_reachable hinv.reach
  have hpend := pending_create_self hok (.get req.key) sessionId
  have hwf := wellFormed_reachable (hinv.reach.act (.create (.get req.key) sessionId))
  have hmem : s.world.txCount + 1 ∈ s.getting ++ [s.world.txCount + 1] :=
    List.mem_append_right _ List.mem_cons_self
  rcases enter_get hwf hpend rfl draws' with ⟨hnone, -⟩ | ⟨i, v, ha, hres, -⟩
  · exact absurd (hversions.symm.trans hnone) (List.cons_ne_nil _ _)
  · -- there is one version to be given
    have hv : [(req.value, 1)][i]? = some v := hversions ▸ ha.1
    obtain ⟨hi, hv⟩ := List.getElem?_eq_some_iff.mp hv
    obtain rfl : i = 0 := by simpa using hi
    obtain rfl : (req.value, 1) = v := hv
    simp only [HttpServer.act, if_pos hmem, handleGetEnter]
    rw [show _ = some _ from hres]
    show s.getReplies ++ [getReply (.ok (req.value, 0 + 1))] = _
    rw [hreplies]
    rfl

/-- **A posted key is fetched** just if it has no slash. -/
theorem fetched_iff (hlaw : uri.Lawful) (enc : KeyEncoder) (store : StoreName)
    (hread : readPost post = some req) (hetag : req.etag = none) (hkey : req.key ≠ "")
    (hsession : getSessionId get.header = some req.sessionId)
    (hpath : get.path = keyPath enc store req.key) (draws draws' : Draws) :
    Fetched uri post get req draws draws' ↔ '/' ∉ req.key.toList := by
  have hlook : LooksUp uri (afterPost uri post draws) get req.key ↔ '/' ∉ req.key.toList := by
    rw [looksUp_keyPath_iff hlaw enc store hpath hsession]
    exact ⟨fun h => h.2.1, fun h => ⟨hkey, h, 0, 0, by simp⟩⟩
  constructor
  · intro h
    exact hlook.mp h.looksUp
  · intro h
    exact ⟨hlook.mpr h,
      returns_of_looksUp hread hetag draws draws' hsession (hlook.mpr h)⟩

end Fetch

/-- GETs at these paths look up one key. -/
def PathsCollide (uri : Uri) (path path' : String) : Prop :=
  ∃ s get get' key, get.path = path ∧ get'.path = path'
    ∧ LooksUp uri s get key ∧ LooksUp uri s get' key

theorem pathsCollide_iff {uri : Uri} (hlaw : uri.Lawful) (enc : KeyEncoder) (store : StoreName)
    (k k' : String) : PathsCollide uri (keyPath enc store k) (keyPath enc store k')
      ↔ ∃ key : String, key ≠ "" ∧ '/' ∉ key.toList ∧ Padded '/' key.toList k.toList
        ∧ Padded '/' key.toList k'.toList := by
  constructor
  · rintro ⟨s, get, get', key, hpath, hpath', hlook, hlook'⟩
    obtain ⟨sessionId, hsession, -⟩ := id hlook
    obtain ⟨sessionId', hsession', -⟩ := id hlook'
    obtain ⟨hkey, hslash, hpad⟩ := (looksUp_keyPath_iff hlaw enc store hpath hsession).mp hlook
    obtain ⟨-, -, hpad'⟩ := (looksUp_keyPath_iff hlaw enc store hpath' hsession').mp hlook'
    exact ⟨key, hkey, hslash, hpad, hpad'⟩
  · rintro ⟨key, hkey, hslash, hpad, hpad'⟩
    -- requests without a session header
    refine ⟨HttpServer.new, ⟨fun _ => none, keyPath enc store k, none⟩,
      ⟨fun _ => none, keyPath enc store k', none⟩, key, rfl, rfl, ?_, ?_⟩
    · exact (looksUp_keyPath_iff hlaw enc store rfl rfl).mpr ⟨hkey, hslash, hpad⟩
    · exact (looksUp_keyPath_iff hlaw enc store rfl rfl).mpr ⟨hkey, hslash, hpad'⟩

/-- **When keys that are posted can be fetched.** The GET at the path of a key that was posted
to a fresh server looks up that key, and returns what was posted, just if the key has no
slash. And the paths of two keys look up different keys just if the two are not one key with
slashes around it. -/
theorem keys_fetched_iff (uri : Uri) (hlaw : uri.Lawful) (enc : KeyEncoder) (store : StoreName) :
    (∀ post get req draws draws', readPost post = some req → req.etag = none → req.key ≠ "" →
        getSessionId get.header = some req.sessionId → get.path = keyPath enc store req.key →
        (Fetched uri post get req draws draws' ↔ '/' ∉ req.key.toList))
      ∧ ∀ k k' : String, k ≠ "" → k' ≠ "" → k ≠ k' →
        (¬ PathsCollide uri (keyPath enc store k) (keyPath enc store k')
          ↔ ¬ ∃ key : String, key ≠ "" ∧ '/' ∉ key.toList ∧ Padded '/' key.toList k.toList
            ∧ Padded '/' key.toList k'.toList) := by
  constructor
  · intro post get req draws draws' hread hetag hkey hsession hpath
    exact fetched_iff hlaw enc store hread hetag hkey hsession hpath draws draws'
  · intro k k' _ _ _
    exact not_congr (pathsCollide_iff hlaw enc store k k')

/-- A URI library that does what is relied on. -/
def standardUri : Uri where
  decode := PercentEncoding.decode
  splitPath path := (segments '/' path.toList).map String.ofList

theorem standardUri_lawful : standardUri.Lawful where
  decode _ _ := decode_of_encodes
  splitPath _ := rfl

/-- What is neither reserved nor in need of encoding. -/
def unreserved : List Char :=
  "ABCDEFGHIJKLMNOPQRSTUVWXYZabcdefghijklmnopqrstuvwxyz0123456789-._~".toList

def unreservedEncoder : KeyEncoder where
  keeps c := decide (c ∈ unreserved)
  plain c hc := List.all_iff_forall_prop.mp (by decide) c (of_decide_eq_true hc)
  reserved := List.all_iff_forall_prop.mp (by decide)

def exampleStore : StoreName where
  name := "store"
  nonempty := by decide
  plain := List.all_iff_forall_prop.mp (by decide)

/-- A GET of a key from the state store. -/
def getMessage (session key : String) : HttpRequest where
  header name := if name = "session-id" then some session else none
  path := keyPath unreservedEncoder exampleStore key
  json := none

theorem getSessionId_getMessage (key : String) :
    getSessionId (getMessage "1" key).header = some 1 := by
  show stol "1" = some 1
  decide

theorem keys_fetched_iff_space :
    (Fetched standardUri (postMessage "1" "a b" 5 []) (getMessage "1" "a b")
          ⟨1, "a b", .number 5, none⟩ zeroDraws zeroDraws ↔ '/' ∉ "a b".toList)
      ∧ (¬ PathsCollide standardUri (keyPath unreservedEncoder exampleStore "a")
            (keyPath unreservedEncoder exampleStore "/a")
        ↔ ¬ ∃ key : String, key ≠ "" ∧ '/' ∉ key.toList ∧ Padded '/' key.toList "a".toList
          ∧ Padded '/' key.toList "/a".toList) :=
  ⟨(keys_fetched_iff standardUri standardUri_lawful unreservedEncoder exampleStore).1
      (postMessage "1" "a b" 5 []) (getMessage "1" "a b") ⟨1, "a b", .number 5, none⟩ zeroDraws
      zeroDraws rfl rfl (by decide) (getSessionId_getMessage _) rfl,
    (keys_fetched_iff standardUri standardUri_lawful unreservedEncoder exampleStore).2 "a" "/a"
      (by decide) (by decide) (by decide)⟩

/-- The key `a/b` is never fetched, and the path of the key `/a` is the key `a`'s as well. -/
theorem keys_fetched_violated :
    readPost (postMessage "1" "a/b" 5 []) = some ⟨1, "a/b", .number 5, none⟩
      ∧ ¬ Fetched standardUri (postMessage "1" "a/b" 5 []) (getMessage "1" "a/b")
        ⟨1, "a/b", .number 5, none⟩ zeroDraws zeroDraws
      ∧ PathsCollide standardUri (keyPath unreservedEncoder exampleStore "a")
        (keyPath unreservedEncoder exampleStore "/a") := by
  refine ⟨rfl, ?_, ?_⟩
  · rw [fetched_iff standardUri_lawful unreservedEncoder exampleStore rfl rfl
      (by decide) (getSessionId_getMessage _) rfl zeroDraws zeroDraws]
    decide
  · rw [pathsCollide_iff standardUri_lawful]
    exact ⟨"a", by decide, by decide, ⟨0, 0, by decide⟩, 1, 0, by decide⟩

end MockDB
