/-
# The methods that a 405 lists

If only other methods have a route for a path, `ioh_router_dispatch` lists those
whose trie has one. A request by a listed method is found, unless what it
captures has no room in the match. A request that is found need not be listed:
the trie of `GET` serves `HEAD` as well, and the list does not say so.
-/
import Iohttp.Router.Classify

namespace Iohttp

open List

variable {method : Method} {r : Router}

def listedNames (list : Bytes) : List Bytes := (list.splitOn 44).map fun item => item.dropWhile (· = 32)

theorem intercalate_cons_head (sep : Bytes) (c : UInt8) (item : Bytes) : ∀ items : List Bytes,
    sep.intercalate ((c :: item) :: items) = c :: sep.intercalate (item :: items)
  | [] => by rw [intercalate_singleton, intercalate_singleton]
  | next :: items => by rw [intercalate_cons_cons, intercalate_cons_cons]; rfl

theorem intercalate_comma : ∀ (name : Bytes) (names : List Bytes),
    (bytes ", ").intercalate (name :: names) = [44].intercalate (name :: names.map (32 :: ·))
  | name, [] => by rw [map_nil, intercalate_singleton, intercalate_singleton]
  | name, next :: names => by
    rw [intercalate_cons_cons, map_cons, intercalate_cons_cons, intercalate_cons_head,
      ← intercalate_comma next names]
    simp [bytes]

/-- **A list that was written is read back.** -/
theorem listedNames_intercalate {names : List Bytes} (hne : names ≠ [])
    (h : ∀ name ∈ names, 44 ∉ name ∧ name.dropWhile (· = 32) = name) :
    listedNames ((bytes ", ").intercalate names) = names := by
  obtain ⟨name, names, rfl⟩ := exists_cons_of_ne_nil hne
  have hrest := (forall_mem_cons.mp h).2
  rw [listedNames, intercalate_comma, splitOn_intercalate 44 _ (cons_ne_nil _ _), map_cons,
    (h name mem_cons_self).2, map_map]
  · rw [map_congr_left (g := id), map_id]
    intro n hn
    exact (hrest n hn).2
  · intro item hitem
    rcases mem_cons.mp hitem with rfl | hitem
    · exact (h item mem_cons_self).1
    · obtain ⟨n, hn, rfl⟩ := mem_map.mp hitem
      exact fun hc => (hrest n hn).1 ((mem_cons.mp hc).resolve_left (by decide))

variable {name norm path : Bytes}

theorem methodTable_inj {m m' : Method} (h : (m, name) ∈ methodTable)
    (h' : (m', name) ∈ methodTable) : m = m' := by
  have hnodup : (methodTable.map (·.2)).Nodup := by decide
  exact congrArg Prod.fst (inj_on_of_nodup_map hnodup h h' rfl)

theorem searchMethods_notAllowed
    (h : (searchMethods r method norm).status = .methodNotAllowed) : picked r method norm = none ∧
    listedNames (searchMethods r method norm).allowedMethods = (otherMethods r method norm).map
    (·.2) := by
  cases hp : picked r method norm with
  | some m =>
    rw [searchMethods_some hp, foundMatch] at h
    split_ifs at h
  | none =>
    refine ⟨rfl, ?_⟩
    have hne : otherMethods r method norm ≠ [] := by
      intro hnil
      rw [searchMethods_none_status hp, if_pos hnil] at h
      cases h
    rw [searchMethods_none hp, if_neg hne]
    refine listedNames_intercalate (fun hnil => hne (map_eq_nil_iff.mp hnil)) fun name hname => ?_
    obtain ⟨m, hm, rfl⟩ := mem_map.mp hname
    have hnames : ∀ m ∈ methodTable, 44 ∉ m.2 ∧ m.2.dropWhile (· = 32) = m.2 := by decide
    exact hnames m (mem_filter.mp hm).1

/-- A method is served if a trie has a match whose captures fit. -/
theorem found_iff : (searchMethods r method norm).status = .found ↔
      ∃ m, picked r method norm = some m ∧ paramsFit m.params = true := by
  constructor
  · intro h
    obtain ⟨m, hm, he⟩ := searchMethods_found h
    refine ⟨m, hm, ?_⟩
    rw [he, foundMatch] at h
    split_ifs at h with hfit
    exact hfit
  · rintro ⟨m, hm, hfit⟩
    rw [searchMethods_some hm, foundMatch, if_pos hfit]

/-- The list of a dispatch has, each once, the names of exactly the methods by
which the path is found. -/
structure AllowExact (r : Router) (method : Method) (path : Bytes) : Prop where
  nodup : (listedNames (routerDispatch r method path).allowedMethods).Nodup
  names : ∀ name, name ∈ listedNames (routerDispatch r method path).allowedMethods ↔
    ∃ m, (m, name) ∈ methodTable ∧ (routerDispatch r m path).status = .found

theorem ne_unknown_of_mem {m : Method} (h : (m, name) ∈ methodTable) : m ≠ .unknown := by
  have hall : ∀ m ∈ methodTable, m.1 ≠ .unknown := by decide
  exact hall _ h

theorem dispatch_notAllowed (h : (routerDispatch r method path).status = .methodNotAllowed)
    (hnorm : pathNormalize path maxUriSize = some norm) (m : Method) :
    routerDispatch r m path = searchMethods r m norm := by
  rcases routerDispatch_cases r path with hno | ⟨norm', hnorm', ⟨_, hno⟩ | hsearch⟩
  · rw [hno] at h
    cases h
  · rw [hno] at h
    cases h
  · rw [hnorm] at hnorm'
    cases hnorm'
    exact hsearch m

/-- The list is exact if the methods with a trie that has a route are the methods
that are served. -/
theorem allowExact_iff_served
    (h : (routerDispatch r method path).status = .methodNotAllowed)
    (hnorm : pathNormalize path maxUriSize = some norm) : AllowExact r method path ↔ ∀ m, m ≠ .unknown →
      (HasRoute r norm m ↔ ∃ found, picked r m norm = some found ∧ paramsFit found.params = true) := by
  have hsearch := dispatch_notAllowed h hnorm
  rw [hsearch] at h
  obtain ⟨hnone, hlist⟩ := searchMethods_notAllowed h
  have hown : ∀ m, HasRoute r norm m → m ≠ method := by
    rintro _ hroute rfl
    exact absurd (picked_isSome.mpr (.inl hroute)) (by rw [hnone]; exact nofun)
  have hmem : ∀ name, name ∈ listedNames (routerDispatch r method path).allowedMethods ↔
      ∃ m, (m, name) ∈ methodTable ∧ HasRoute r norm m := by
    intro name
    rw [hsearch, hlist, mem_map]
    constructor
    · rintro ⟨⟨m, _⟩, hm, rfl⟩
      obtain ⟨htable, _, hroute⟩ := mem_otherMethods.mp hm
      exact ⟨m, htable, hroute⟩
    · rintro ⟨m, htable, hroute⟩
      exact ⟨(m, name), mem_otherMethods.mpr ⟨htable, hown m hroute, hroute⟩, rfl⟩
  constructor
  · intro hexact m hm
    obtain ⟨name, htable⟩ := mem_methodTable hm
    have hname := (hmem name).symm.trans (hexact.names name)
    -- the name stands for this method on both sides
    have honly : ∀ {P : Method → Prop}, (∃ m', (m', name) ∈ methodTable ∧ P m') ↔ P m := by
      intro P
      constructor
      · rintro ⟨m', htable', hp⟩
        rwa [methodTable_inj htable htable']
      · exact fun hp => ⟨m, htable, hp⟩
    rw [honly, honly, hsearch, found_iff] at hname
    exact hname
  · intro hserved
    refine ⟨?_, fun name => ?_⟩
    · rw [hsearch, hlist]
      exact (filter_sublist.map _).nodup (by decide : (methodTable.map (·.2)).Nodup)
    · rw [hmem name]
      refine exists_congr fun m => and_congr_right fun htable => ?_
      rw [hsearch, found_iff]
      exact hserved m (ne_unknown_of_mem htable)

/-- **When a 405 lists exactly the usable methods**: if what a route captures
always fits, and `HEAD` has a route of its own where `GET` has one. -/
theorem allow_exact_iff {r : Router} {method : Method} {path norm : Bytes}
    (h : (routerDispatch r method path).status = .methodNotAllowed)
    (hnorm : pathNormalize path maxUriSize = some norm) :
    AllowExact r method path ↔
      (∀ m found, m ≠ .unknown → lookupMethod r m norm = some found → paramsFit found.params = true) ∧
      (HasRoute r norm .get → HasRoute r norm .head) := by
  rw [allowExact_iff_served h hnorm]
  constructor
  · intro hserved
    have hfits : ∀ m found, m ≠ .unknown → lookupMethod r m norm = some found →
        paramsFit found.params = true := by
      intro m found hm hfound
      obtain ⟨found', hpick, hfit⟩ := (hserved m hm).mp (by rw [HasRoute, hfound]; rfl)
      rw [picked, hfound] at hpick
      cases hpick
      exact hfit
    refine ⟨hfits, fun hget => ?_⟩
    refine (hserved .head (by decide)).mpr ?_
    obtain ⟨found', hpick⟩ := Option.isSome_iff_exists.mp
      (picked_isSome.mpr (.inr ⟨rfl, hget⟩) : (picked r .head norm).isSome = true)
    refine ⟨found', hpick, ?_⟩
    rcases Option.or_eq_some_iff.mp hpick with hown | ⟨_, hget'⟩
    · exact hfits .head found' (by decide) hown
    · exact hfits .get found' (by decide) (by rwa [if_pos rfl] at hget')
  · rintro ⟨hfits, hhead⟩ m hm
    constructor
    · intro hroute
      obtain ⟨found, hfound⟩ := Option.isSome_iff_exists.mp hroute
      exact ⟨found, by rw [picked, hfound]; rfl, hfits m found hm hfound⟩
    · rintro ⟨found, hpick, _⟩
      rcases picked_isSome.mp (by rw [hpick]; rfl : (picked r m norm).isSome = true) with hroute | ⟨rfl, hget⟩
      · exact hroute
      · exact hhead hget

/-- A request by `POST` for a route of `GET`. -/
theorem head_not_listed :
    (routerDispatch (routerHandle routerCreate .get (bytes "/a") 1).1 .post (bytes "/a")).status =
    .methodNotAllowed ∧
    (routerDispatch (routerHandle routerCreate .get (bytes "/a") 1).1 .head (bytes "/a")).status =
    .found ∧
    listedNames (routerDispatch (routerHandle routerCreate .get (bytes "/a") 1).1 .post
      (bytes "/a")).allowedMethods =
      [bytes "GET"] ∧
    ¬AllowExact (routerHandle routerCreate .get (bytes "/a") 1).1 .post (bytes "/a") := by
  have hlist : listedNames (routerDispatch (routerHandle routerCreate .get (bytes "/a") 1).1 .post
      (bytes "/a")).allowedMethods = [bytes "GET"] := by decide +kernel
  have hfound :
    (routerDispatch (routerHandle routerCreate .get (bytes "/a") 1).1 .head (bytes "/a")).status =
      .found := by decide +kernel
  refine ⟨by decide +kernel, hfound, hlist, fun hexact => ?_⟩
  have hmem := (hexact.names (bytes "HEAD")).mpr ⟨.head, by decide, hfound⟩
  exact absurd hmem (by decide)

/-- A request by `DELETE` for a path that has routes of `POST` and `PUT`. -/
theorem allow_exact_post_put :
    AllowExact (routerHandle (routerHandle routerCreate .post (bytes "/:id") 1).1 .put
      (bytes "/:id") 2).1 .delete
      (bytes "/7") := by
  have hnorm : pathNormalize (bytes "/7") maxUriSize = some (bytes "/7") := by decide +kernel
  have hfits : ∀ m, (lookupMethod
      (routerHandle (routerHandle routerCreate .post (bytes "/:id") 1).1 .put (bytes "/:id") 2).1 m
      (bytes "/7")).all (fun found => paramsFit found.params) = true := by
    intro m
    cases m <;> decide +kernel
  refine (allow_exact_iff (by decide +kernel) hnorm).mpr ⟨fun m found _ hfound => ?_, fun hget => ?_⟩
  · have hfit := hfits m
    rw [hfound] at hfit
    exact hfit
  · exact absurd hget (by unfold HasRoute; decide +kernel)

end Iohttp
