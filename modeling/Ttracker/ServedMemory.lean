import Ttracker.RequestMemory

/-!
The memory of served connections. The programs on the heap and the handlers over
`TorrentList` take the same steps on lists that hold the same, and what a connection
leaves allocated is what its torrent keeps and the entries a refused query left.
-/
namespace Ttracker.ServedMemory
open CLibrary LinkedNodes HttpQuery PeerRequest RequestCopies Torrents TorrentCache AnnounceHandler
  ScrapeHandler ScrapeText AnnounceReplies Buffers OwnedBlocks HeapLists ServedRequests RequestMemory

/-! ## Addresses that are not used again -/

/-- The torrents and each torrent's peers have addresses of their own. -/
structure Addressed (tl : TorrentList) : Prop where
  distinct : (addresses tl.list).Nodup
  old : ∀ p ∈ addresses tl.list, p < tl.next
  torrents : ∀ te ∈ tl.list, Consistent te.val tl.next

theorem addressed_empty : Addressed .empty := by
  constructor <;> simp [TorrentList.empty, addresses]

theorem addressed_lookup {db : Database} {infoHash : List UInt8} {tl after : TorrentList}
    {found : Option (Node TorrentEntry)} (addressed : Addressed tl)
    (looked : Lookup db infoHash tl after found) : Addressed after := by
  cases looked with
  | hit | unknown => exact addressed
  | inserted missed fits known =>
      constructor
      · exact List.nodup_cons.mpr ⟨fun member => (addressed.old _ member).false, addressed.distinct⟩
      · refine List.forall_mem_cons.mpr ⟨Nat.lt_succ_self _, fun p member => ?_⟩
        exact Nat.lt_succ_of_lt (addressed.old p member)
      · refine List.forall_mem_cons.mpr ⟨consistent_mk _ _ _, fun te member => ?_⟩
        exact consistent_mono (addressed.torrents te member) (Nat.le_succ _)

theorem addressed_handled {env : Environment} {tl after : TorrentList} {job : Job} {reply : Reply}
    (addressed : Addressed tl) (handled : Handled env tl job after reply) : Addressed after := by
  cases handled with
  | rejected | unknown => exact addressed
  | accepted ctx pe looked torrent taken =>
      have working : Addressed (torrentListWorkon tl) :=
        ⟨addressed.distinct, addressed.old, addressed.torrents⟩
      have before := addressed_lookup working taken.lookup
      have member := looked_mem taken.lookup
      have same := addresses_modifyAt torrent.addr
        (fun _ => (AnnounceHandler.announcePeer torrent.val looked.next pe ctx.event.bytes).1) looked.list
      constructor
      · rw [same]
        exact before.distinct
      · rw [same]
        exact fun p listed => Nat.lt_succ_of_lt (before.old p listed)
      · intro te inside
        rcases (mem_accepted_iff member _ te).mp inside with ⟨other, -⟩ | rfl
        · exact consistent_mono (before.torrents te other) (Nat.le_succ _)
        · exact announce_consistent (before.torrents torrent member) pe ctx.event.bytes

theorem addressed_scraped {db : Database} {keys : List (List UInt8)} {s t : Scraping} {whole : Bool}
    (addressed : Addressed s.tl) (ended : ScrapeHandler.scrapeHashes db keys s = .ok (whole, t)) :
    Addressed t.tl := by
  induction keys generalizing s with
  | nil =>
      cases ended
      exact addressed
  | cons infoHash rest ih =>
      unfold ScrapeHandler.scrapeHashes at ended
      split at ended
      · contradiction
      · next tl looked =>
          cases ended
          exact addressed_lookup addressed (lookup_cases looked)
      · next tl te looked => exact ih (addressed_lookup addressed (lookup_cases looked)) ended

theorem addressed_scrape {env : Environment} {tl : TorrentList} {list : List HttpUriKv}
    {fresh : Nat → FreshHash} {whole : Bool} {s : Scraping} (addressed : Addressed tl)
    (handled : ScrapeHandler.jobHandleScrape env tl list fresh = .ok (whole, s)) :
    Addressed s.tl := by
  unfold ScrapeHandler.jobHandleScrape at handled
  cases ended : ScrapeHandler.scrapeHashes env.db (httpBuildPeerReqHashList env.curl list
      fun i => (fresh i).mem) ⟨torrentListWorkon tl, [], []⟩ with
  | error fault => simp [ended, Except.map] at handled
  | ok both =>
      obtain ⟨all, t⟩ := both
      simp only [ended, Except.map, Except.ok.injEq, Prod.mk.injEq] at handled
      obtain ⟨rfl, rfl⟩ := handled
      have working : Addressed (torrentListWorkon tl) :=
        ⟨addressed.distinct, addressed.old, addressed.torrents⟩
      have kept := addressed_scraped working ended
      exact ⟨kept.distinct, kept.old, kept.torrents⟩

/-! ## Lists that hold the same -/

/-- The torrents and, in each, the peers are the same in the same order. -/
def Alike (list : HeapList) (tl : TorrentList) : Prop :=
  contents (fun t => bare t.te) list = contents bare tl.list

/-- Two searches missed, or stopped at one position. -/
inductive Both (list : HeapList) (others : List (Node TorrentEntry)) :
    Option (Node HeapTorrent) → Option (Node TorrentEntry) → Prop where
  | missed : Both list others none none
  | hit (i : Nat) (node : Node HeapTorrent) (other : Node TorrentEntry)
      (here : list[i]? = some node) (there : others[i]? = some other)
      (alike : bare node.val.te = bare other.val) : Both list others (some node) (some other)

theorem alike_replaced {list : HeapList} {tl : TorrentList} {i : Nat} {node : Node HeapTorrent}
    {other : Node TorrentEntry} (alike : Alike list tl) (here : list[i]? = some node)
    (there : tl.list[i]? = some other) (distinct : (addresses list).Nodup)
    (distinct' : (addresses tl.list).Nodup) {te : HeapTorrent} {entry : TorrentEntry}
    (same : bare te.te = bare entry) (next : Nat) (working : Int) :
    Alike (modifyAt node.addr (fun _ => te) list)
      ⟨modifyAt other.addr (fun _ => entry) tl.list, next, working⟩ := by
  rw [modify_at_position distinct here, modify_at_position distinct' there]
  simp only [Alike, contents] at alike ⊢
  rw [List.map_set, List.map_set, alike, same]

/-- A torrent's blocks and the others, before and after its torrent is replaced. -/
theorem replaced_blocks {list : HeapList} {i : Nat} {node : Node HeapTorrent}
    (here : list[i]? = some node) (distinct : (addresses list).Nodup) :
    ∃ others, (listBlocks list).Perm (node.addr :: (innerBlocks node.val ++ others)) ∧
      ∀ te, (listBlocks (modifyAt node.addr (fun _ => te) list)).Perm
        (node.addr :: (innerBlocks te ++ others)) := by
  refine ⟨listBlocks (list.eraseIdx i), flat_map_at torrentBlocks here, fun te => ?_⟩
  rw [modify_at_position distinct here]
  exact flat_map_set torrentBlocks here ⟨node.addr, te⟩

structure LookedUp (after : TorrentList) (found : Option (Node TorrentEntry))
    (out : HeapList × Option (Node HeapTorrent)) (left : List Nat) : Prop where
  blocks : left.Perm (listBlocks out.1)
  alike : Alike out.1 after
  both : Both out.1 after.list out.2 found

section Rules
variable (a : Allocator Nat)

theorem lookup_takes {db : Database} {infoHash : List UInt8} {list : HeapList}
    {tl after : TorrentList} {found : Option (Node TorrentEntry)} (alike : Alike list tl)
    (looked : torrentLookupTorrent db infoHash tl = .ok (after, found)) :
    Takes (lookupTorrent a db infoHash list) (listBlocks list) (LookedUp after found) := by
  refine takes_search (torrents_listed list) ?_
  -- both lists hold the same torrents, so one position is found in both or none is
  cases search_same (fun te : TorrentEntry =>
      te.infoHash.take torrentHashLen == infoHash.take torrentHashLen) alike with
  | hit i node other one two here there same =>
      have searched : list.find? (fun pt => pt.val.te.infoHash.take torrentHashLen ==
          infoHash.take torrentHashLen) = some node := one
      have searched' : torrentDoLookupTorrentInfoHash infoHash tl.list = some other := two
      rw [searched]
      rw [torrentLookupTorrent, searched'] at looked
      cases looked
      exact takes_pure (List.Perm.refl _) ⟨List.Perm.refl _, alike, .hit i node other here there same⟩
  | missed one two =>
      have searched : list.find? (fun pt => pt.val.te.infoHash.take torrentHashLen ==
          infoHash.take torrentHashLen) = none := one
      have searched' : torrentDoLookupTorrentInfoHash infoHash tl.list = none := two
      rw [searched]
      cases asked : dbQueryLookupTorrent db infoHash with
      | error fault => simp [torrentLookupTorrent, searched', asked] at looked
      | ok tid =>
          rw [torrentLookupTorrent, searched', asked] at looked
          refine takes_lift rfl ?_
          by_cases refused : tid = -1
          · simp only [refused, if_true] at looked ⊢
            cases looked
            exact takes_pure (List.Perm.refl _) ⟨List.Perm.refl _, alike, .missed⟩
          · simp only [refused, if_false] at looked ⊢
            cases looked
            refine takes_malloc a fun p => takes_malloc a fun peerRwlk => takes_malloc a fun peers => ?_
            refine takes_insert (by simp) (fun q listed => ?_) ?_
            · simp [torrents_listed list q listed]
            · refine takes_pure (List.Perm.refl _) ⟨?_, ?_, .hit 0 _ _ rfl rfl rfl⟩
              · exact (List.reverse_perm [p, peerRwlk, peers]).append_right (listBlocks list)
              · exact congrArg (List.cons _) alike

/-! ## Announces -/

structure AnnounceDone (kvs : List (Node HttpUriKv)) (after : TorrentList) (reply : Reply)
    (out : Nat × HeapList × Reply) (left : List Nat) : Prop where
  blocks : left.Perm (out.1 :: (addresses kvs ++ listBlocks out.2.1))
  alike : Alike out.2.1 after
  reply : out.2.2 = reply

theorem job_announce_takes {env : Environment} {list : HeapList} {tl after : TorrentList}
    {kvs : List (Node HttpUriKv)} {clientaddr : InAddr} {reply : Reply} (alike : Alike list tl)
    (addressed : Addressed tl) (handled : AnnounceHandler.jobHandleAnnounce env tl
      ⟨kvs.map Node.val, clientaddr⟩ = .ok (after, reply)) (inside : PrintedInside reply) :
    Takes (jobHandleAnnounce a env list kvs clientaddr) (addresses kvs ++ listBlocks list)
      (AnnounceDone kvs after reply) := by
  obtain ⟨ctx, built, handled⟩ := bind_ok handled
  have read : (httpBuildPeerReq env.curl (kvs.map Node.val)).toOption = some ctx :=
    congrArg Except.toOption built
  refine takes_malloc a fun req => takes_walk (fun p member => ?_) (takes_lift read ?_)
  · simp [member]
  cases sanitized : sanitizePeerReq ctx with
  | some error =>
      simp only [sanitized] at handled
      cases handled
      refine takes_malloc a fun errorstr => takes_access List.mem_cons_self ?_
      refine takes_free (List.Perm.refl _) (takes_pure (List.Perm.refl _) ?_)
      exact ⟨List.Perm.refl _, alike, rfl⟩
  | none =>
      simp only [sanitized] at handled
      obtain ⟨⟨looked, found⟩, lookedUp, handled⟩ := bind_ok handled
      -- blocks are compared by how often each address is among them
      have given : (req :: (addresses kvs ++ listBlocks list)).Perm
          (listBlocks list ++ req :: addresses kvs) := by
        rw [List.perm_iff_count]
        intro p
        simp only [List.count_cons, List.count_append]
        omega
      have alike' : Alike list (torrentListWorkon tl) := alike
      refine takes_call (lookup_takes a alike' lookedUp) given ?_
      rintro ⟨list, torrent⟩ left ⟨blocks, same, both⟩
      dsimp only at blocks same both ⊢
      cases both with
      | missed =>
          cases handled
          refine takes_pure (List.Perm.refl _) ⟨?_, same, rfl⟩
          rw [List.perm_iff_count]
          intro p
          have counted := blocks.count_eq p
          simp only [List.count_cons, List.count_append]
          omega
      | hit i node other here there sameTorrent =>
          obtain ⟨pe, peer, handled⟩ := bind_ok handled
          cases handled
          refine takes_distinct fun once => ?_
          have addrs := (blocks_distinct (blocks.nodup_iff.mp (List.nodup_append.mp once).1)).1
          have looking : Addressed (torrentListWorkon tl) :=
            ⟨addressed.distinct, addressed.old, addressed.torrents⟩
          have kept := addressed_lookup looking (lookup_cases lookedUp)
          have peers := (kept.torrents other (List.mem_of_getElem? there)).distinct
          -- the handler owns the blocks of its torrent, the others stay out of its way
          obtain ⟨others, before, replaced⟩ := replaced_blocks here addrs
          have taken : (left ++ req :: addresses kvs).Perm
              (innerBlocks node.val ++ node.addr :: (others ++ req :: addresses kvs)) := by
            rw [List.perm_iff_count]
            intro p
            have counted := blocks.count_eq p
            have split := before.count_eq p
            simp only [List.count_cons, List.count_append] at split ⊢
            omega
          refine takes_access (by simp) (takes_lift (congrArg Except.toOption peer) ?_)
          refine takes_access (taken.mem_iff.mpr (by simp)) ?_
          refine takes_call (announce_takes a sameTorrent peers looked.next pe ctx.event.bytes inside) taken ?_
          rintro ⟨te, reply⟩ inner ⟨own, torrent, rfl⟩
          dsimp only at own torrent ⊢
          refine takes_pure (List.Perm.refl _) ⟨?_, ?_, rfl⟩
          · rw [List.perm_iff_count]
            intro p
            have counted := own.count_eq p
            have split := (replaced te).count_eq p
            simp only [List.count_cons, List.count_append] at split ⊢
            omega
          · exact alike_replaced same here there addrs kept.distinct torrent _ _

/-! ## Scrapes -/

theorem build_takes (curl : Unescape) (fresh : Nat → FreshHash) (i : Nat)
    (nps : List (Node HttpUriKv)) (hashes : List (Node (List UInt8))) {rest : List Nat}
    (inside : ∀ p ∈ addresses nps, p ∈ rest) :
    Takes (buildHashes a curl fresh i nps hashes) (addresses hashes ++ rest) fun out left =>
      out.map Node.val = ((nps.map Node.val).mapIdx fun j np =>
          urlDecode curl (fresh (i + j)).mem np.val.bytes).reverse ++ hashes.map Node.val ∧
        left.Perm (addresses out ++ rest) := by
  induction nps generalizing i hashes with
  | nil => exact takes_pure (List.Perm.refl _) ⟨rfl, List.Perm.refl _⟩
  | cons np others ih =>
      have member : np.addr ∈ addresses hashes ++ rest :=
        List.mem_append_right _ (inside _ List.mem_cons_self)
      refine takes_access member (takes_malloc a fun pp => takes_insert List.mem_cons_self ?_ ?_)
      · exact fun p listed => List.mem_cons_of_mem _ (List.mem_append_left _ listed)
      refine (ih (i + 1) _ fun p listed => inside p (List.mem_cons_of_mem _ listed)).weaken ?_
      rintro out left ⟨decoded, blocks⟩
      refine ⟨?_, blocks⟩
      rw [decoded]
      simp [List.mapIdx_cons, Nat.add_assoc, Nat.add_comm 1]

structure Copied (rest : List Nat) (whole : Bool) (s : Scraping)
    (out : Bool × HeapList × List (Node ScrapeEntry)) (left : List Nat) : Prop where
  whole : out.1 = whole
  alike : Alike out.2.1 s.tl
  entries : out.2.2.map Node.val = s.sctx
  blocks : left.Perm (listBlocks out.2.1 ++ (addresses out.2.2 ++ rest))

theorem scrape_hashes_takes {db : Database} (hashes : List (Node (List UInt8))) {list : HeapList}
    {sctx : List (Node ScrapeEntry)} {rest : List Nat} {s t : Scraping} {whole : Bool}
    (inside : ∀ p ∈ addresses hashes, p ∈ rest) (alike : Alike list s.tl)
    (entries : sctx.map Node.val = s.sctx)
    (ended : ScrapeHandler.scrapeHashes db (hashes.map Node.val) s = .ok (whole, t)) :
    Takes (scrapeHashes a db hashes list sctx) (listBlocks list ++ (addresses sctx ++ rest))
      (Copied rest whole t) := by
  induction hashes generalizing list sctx s with
  | nil =>
      cases ended
      exact takes_pure (List.Perm.refl _) ⟨rfl, alike, entries, List.Perm.refl _⟩
  | cons hep others ih =>
      have member := inside hep.addr List.mem_cons_self
      have later := fun p listed => inside p (List.mem_cons_of_mem hep.addr listed)
      rw [List.map_cons, ScrapeHandler.scrapeHashes] at ended
      refine takes_access (by simp [member]) ?_
      cases looked : torrentLookupTorrent db hep.val s.tl with
      | error fault => simp [looked] at ended
      | ok both =>
      obtain ⟨after, found⟩ := both
      refine takes_call (lookup_takes a alike looked) (List.Perm.refl _) ?_
      rintro ⟨list, torrent⟩ left ⟨blocks, same, both⟩
      dsimp only at blocks same both ⊢
      cases both with
      | missed =>
          simp only [looked] at ended
          cases ended
          exact takes_pure (List.Perm.refl _) ⟨rfl, same, entries, blocks.append_right _⟩
      | hit i node other here there sameTorrent =>
          simp only [looked] at ended
          have listed : ∀ p ∈ torrentBlocks node, p ∈ left := fun p member =>
            blocks.mem_iff.mpr (List.mem_flatMap.mpr ⟨node, List.mem_of_getElem? here, member⟩)
          have copied := congrArg (scrapeAddTorrent s.sctx) sameTorrent
          refine takes_malloc a fun sep => takes_access ?_ (takes_access ?_ (takes_insert ?_ ?_ ?_))
          · simp [listed node.addr (by simp [torrentBlocks])]
          · simp [listed node.val.peerRwlk (by simp [torrentBlocks, innerBlocks])]
          · exact List.mem_cons_self
          · exact fun p listed => by simp [listed]
          refine (ih later same ?_ ended).perm ?_
          · rw [List.map_cons, entries]
            exact copied
          · rw [List.perm_iff_count]
            intro p
            have counted := blocks.count_eq p
            simp only [addresses, List.map_cons, List.count_cons, List.count_append]
            omega

structure ScrapeDone (kvs : List (Node HttpUriKv)) (whole : Bool) (s : Scraping)
    (out : (Nat × Nat × List (Node (List UInt8))) × HeapList × Bool × List ScrapeEntry)
    (left : List Nat) : Prop where
  blocks : left.Perm (out.1.1 :: out.1.2.1 ::
    (addresses out.1.2.2 ++ (addresses kvs ++ listBlocks out.2.1)))
  alike : Alike out.2.1 s.tl
  whole : out.2.2.1 = whole
  entries : out.2.2.2 = s.sctx

theorem job_scrape_takes {env : Environment} {list : HeapList} {tl : TorrentList}
    {kvs : List (Node HttpUriKv)} {fresh : Nat → FreshHash} {whole : Bool} {s : Scraping}
    (alike : Alike list tl) (handled : ScrapeHandler.jobHandleScrape env tl (kvs.map Node.val) fresh =
      .ok (whole, s)) :
    Takes (jobHandleScrape a env list kvs fresh) (addresses kvs ++ listBlocks list)
      (ScrapeDone kvs whole s) := by
  unfold ScrapeHandler.jobHandleScrape at handled
  cases ended : ScrapeHandler.scrapeHashes env.db (httpBuildPeerReqHashList env.curl
      (kvs.map Node.val) fun i => (fresh i).mem) ⟨torrentListWorkon tl, [], []⟩ with
  | error fault => simp [ended, Except.map] at handled
  | ok both =>
  obtain ⟨all, t⟩ := both
  simp only [ended, Except.map, Except.ok.injEq, Prod.mk.injEq] at handled
  obtain ⟨rfl, rfl⟩ := handled
  refine takes_malloc a fun sctx => takes_malloc a fun ctx => takes_malloc a fun hashlist => ?_
  have building : ∀ p ∈ addresses kvs, p ∈ hashlist :: ctx :: sctx ::
      (addresses kvs ++ listBlocks list) := fun p listed => by simp [listed]
  refine (build_takes a env.curl fresh 0 kvs [] building).bind ?_
  rintro hashes left ⟨decoded, blocks⟩
  have keys : hashes.map Node.val = httpBuildPeerReqHashList env.curl (kvs.map Node.val)
      fun i => (fresh i).mem := by
    rw [decoded]
    simp [httpBuildPeerReqHashList]
  rw [← keys] at ended
  have listed : ∀ p ∈ addresses hashes,
      p ∈ addresses hashes ++ hashlist :: ctx :: sctx :: addresses kvs :=
    fun p member => List.mem_append_left _ member
  have nothing : ([] : List (Node ScrapeEntry)).map Node.val = [] := rfl
  have given : left.Perm (listBlocks list ++ (addresses ([] : List (Node ScrapeEntry)) ++
      (addresses hashes ++ hashlist :: ctx :: sctx :: addresses kvs))) := by
    rw [List.perm_iff_count]
    intro p
    have counted := blocks.count_eq p
    simp only [addresses, List.map_nil, List.count_cons, List.count_append, List.count_nil] at counted ⊢
    omega
  have looping : Alike list (torrentListWorkon tl) := alike
  refine ((scrape_hashes_takes a hashes listed looping nothing ended).perm given).bind ?_
  rintro ⟨_, list', entries⟩ held ⟨rfl, same, copied, owned⟩
  dsimp only at same copied owned ⊢
  have freed : held.Perm (addresses entries ++ sctx :: ctx :: hashlist ::
      (addresses hashes ++ (addresses kvs ++ listBlocks list'))) := by
    rw [List.perm_iff_count]
    intro p
    have counted := owned.count_eq p
    simp only [List.count_cons, List.count_append] at counted ⊢
    omega
  split
  · refine takes_malloc a fun scrapeList => takes_walk (fun p member => ?_) ?_
    · exact List.mem_cons_of_mem _ (freed.mem_iff.mpr (List.mem_append_left _ member))
    have freed' := (freed.cons scrapeList).trans List.perm_middle.symm
    refine takes_access List.mem_cons_self (takes_free_nodes freed' ?_)
    refine takes_access (by simp) (takes_free (List.Perm.swap _ _ _) (takes_free (List.Perm.refl _) ?_))
    exact takes_pure (List.Perm.refl _) ⟨List.Perm.refl _, same, rfl, copied⟩
  · refine takes_free_nodes freed (takes_access List.mem_cons_self (takes_free (List.Perm.refl _) ?_))
    exact takes_pure (List.Perm.refl _) ⟨List.Perm.refl _, same, rfl, copied⟩

/-! ## Queries -/

theorem parse_pairs_takes {p : List UInt8} {found fuel i : Nat} {head head' : List HttpUriKv}
    {complete : Bool} {nodes : List (Node HttpUriKv)} {rest : List Nat}
    (same : nodes.map Node.val = head)
    (parsed : HttpQuery.parsePairs p found fuel i head = some (complete, head')) :
    Takes (parsePairs a p found fuel i nodes) (addresses nodes ++ rest) fun out left =>
      out.1 = complete ∧ out.2.map Node.val = head' ∧ left.Perm (addresses out.2 ++ rest) := by
  induction fuel generalizing i head nodes with
  | zero =>
      unfold HttpQuery.parsePairs at parsed
      by_cases more : i < found
      · simp [more] at parsed
      · rw [if_neg more] at parsed
        cases parsed
        rw [RequestMemory.parsePairs, if_neg more]
        exact takes_pure (List.Perm.refl _) ⟨rfl, same, List.Perm.refl _⟩
  | succ fuel ih =>
      unfold HttpQuery.parsePairs at parsed
      by_cases more : i < found
      · rw [if_pos more] at parsed
        obtain ⟨key, read, parsed⟩ := Option.bind_eq_some_iff.mp parsed
        rw [RequestMemory.parsePairs, if_pos more]
        refine takes_lift read ?_
        by_cases empty : key.length = 0
        · rw [if_pos empty] at parsed ⊢
          cases parsed
          exact takes_pure (List.Perm.refl _) ⟨rfl, same, List.Perm.refl _⟩
        · rw [if_neg empty] at parsed ⊢
          obtain ⟨val, copied, parsed⟩ := Option.bind_eq_some_iff.mp parsed
          refine takes_lift copied (takes_malloc a fun keyval => takes_insert List.mem_cons_self ?_ ?_)
          · exact fun q listed => List.mem_cons_of_mem _ (List.mem_append_left _ listed)
          · refine ih ?_ parsed
            rw [List.map_cons, same]
      · rw [if_neg more] at parsed
        cases parsed
        rw [RequestMemory.parsePairs, if_neg more]
        exact takes_pure (List.Perm.refl _) ⟨rfl, same, List.Perm.refl _⟩

/-- The entries of an accepted query are handed on, those left by a refused one are lost. -/
structure Parsed (result : QueryResult) (rest : List Nat) (out : Int × List (Node HttpUriKv))
    (left : List Nat) : Prop where
  ret : out.1 = result.ret
  accepted : result.ret ≠ -1 →
    out.2.map Node.val = result.head ∧ left.Perm (addresses out.2 ++ rest)
  refused : result.ret = -1 →
    ∃ lost : List Nat, lost.length = result.live.length ∧ left.Perm (lost ++ rest)

theorem judge_takes {jobT : JobType} (input : Buffer) (nodes : List (Node HttpUriKv))
    {rest : List Nat} :
    Takes (judge jobT nodes) (addresses nodes ++ rest)
      (Parsed (HttpQuery.judge jobT input (nodes.map Node.val)) rest) := by
  have walked : ∀ p ∈ addresses nodes, p ∈ addresses nodes ++ rest :=
    fun p listed => List.mem_append_left _ listed
  have all : (addresses nodes).length = (nodes.map Node.val).length := by simp [addresses]
  refine takes_walk walked ?_
  cases jobT with
  | announce =>
      dsimp only [HttpQuery.judge]
      split
      · refine takes_free_nodes (List.Perm.refl _) (takes_pure (List.Perm.refl _) ⟨rfl, ?_, ?_⟩)
        · exact fun refused => absurd rfl refused
        · exact fun _ => ⟨[], rfl, List.Perm.refl _⟩
      · refine takes_pure (List.Perm.refl _) ⟨rfl, fun _ => ⟨rfl, List.Perm.refl _⟩, ?_⟩
        exact fun refused => absurd (show (0 : Int) = -1 from refused) (by decide)
  | scrape =>
      dsimp only [HttpQuery.judge]
      split
      · refine takes_pure (List.Perm.refl _) ⟨rfl, fun refused => absurd rfl refused, ?_⟩
        exact fun _ => ⟨addresses nodes, all, List.Perm.refl _⟩
      · refine takes_pure (List.Perm.refl _) ⟨rfl, fun _ => ⟨rfl, List.Perm.refl _⟩, ?_⟩
        exact fun refused => absurd (show (0 : Int) = -1 from refused) (by decide)
  | stop =>
      refine takes_pure (List.Perm.refl _) ⟨rfl, fun refused => absurd rfl refused, ?_⟩
      exact fun _ => ⟨addresses nodes, all, List.Perm.refl _⟩

theorem query_takes {b : Buffer} {jobT : JobType} {result : QueryResult} {rest : List Nat}
    (parsed : HttpQuery.httpParseQuery b jobT = some result) :
    Takes (httpParseQuery a b jobT) rest (Parsed result rest) := by
  -- a query refused before its pairs has no entries to lose
  have refusedAtOnce : ∀ input, Takes (pure (-1, [])) rest (Parsed ⟨-1, input, [], []⟩ rest) :=
    fun input => takes_pure (List.Perm.refl _)
      ⟨rfl, fun accepted => absurd rfl accepted, fun _ => ⟨[], rfl, List.Perm.refl _⟩⟩
  unfold HttpQuery.httpParseQuery at parsed
  obtain ⟨found, line, parsed⟩ := Option.bind_eq_some_iff.mp parsed
  refine takes_lift line ?_
  by_cases absent : found = 0
  · rw [if_pos absent] at parsed ⊢
    cases parsed
    exact refusedAtOnce _
  rw [if_neg absent] at parsed ⊢
  by_cases brief : found < 11
  · rw [if_pos brief] at parsed ⊢
    cases parsed
    exact refusedAtOnce _
  rw [if_neg brief] at parsed ⊢
  obtain ⟨version, read, parsed⟩ := Option.bind_eq_some_iff.mp parsed
  refine takes_lift read ?_
  by_cases other : version ≠ http11 ∧ version ≠ http10
  · rw [if_pos other] at parsed ⊢
    cases parsed
    exact refusedAtOnce _
  rw [if_neg other] at parsed ⊢
  cases offset : startOffset jobT with
  | none =>
      simp only [offset] at parsed
      cases parsed
      exact refusedAtOnce _
  | some start =>
      simp only [offset] at parsed
      obtain ⟨⟨complete, head⟩, pairs, rfl⟩ := Option.map_eq_some_iff.mp parsed
      have nothing : ([] : List (Node HttpUriKv)).map Node.val = [] := rfl
      refine (parse_pairs_takes a nothing pairs).bind ?_
      rintro ⟨_, nodes⟩ left ⟨rfl, rfl, blocks⟩
      dsimp only at blocks ⊢
      split
      · exact (judge_takes _ nodes).perm blocks
      -- a pair without a key ends the loop, and nobody frees the entries before it
      · refine takes_pure blocks ⟨rfl, fun accepted => absurd rfl accepted, fun _ => ?_⟩
        exact ⟨addresses nodes, by simp [addresses], List.Perm.refl _⟩

/-! ## Connections -/

/-- `job->peer_req->hashlist` and its entries. -/
def hashBlocks : Option (Nat × List (Node (List UInt8))) → List Nat
  | none => []
  | some (head, hashes) => head :: addresses hashes

omit a in
theorem complete_takes {kvs : List (Node HttpUriKv)} {kvList req job : Nat}
    {hashlist : Option (Nat × List (Node (List UInt8)))} {given rest : List Nat}
    (perm : given.Perm (addresses kvs ++ kvList :: req :: (hashBlocks hashlist ++ job :: rest))) :
    Takes (jobComplete kvs kvList req hashlist job) given fun _ left => left = rest := by
  refine takes_access (perm.mem_iff.mpr (by simp)) (takes_free_nodes perm ?_)
  refine takes_access List.mem_cons_self (takes_free (List.Perm.refl _) ?_)
  refine takes_access List.mem_cons_self ?_
  have last : Takes (do free req; access job; free job : Program Nat Unit) (req :: job :: rest)
      fun _ left => left = rest := by
    refine takes_free (List.Perm.refl _) (takes_access List.mem_cons_self ?_)
    exact takes_free_last (List.Perm.refl _)
  cases hashlist with
  | none => exact last
  | some both =>
      obtain ⟨head, hashes⟩ := both
      have freed : (req :: (hashBlocks (some (head, hashes)) ++ job :: rest)).Perm
          (addresses hashes ++ head :: req :: job :: rest) := by
        rw [List.perm_iff_count]
        intro p
        simp only [hashBlocks, List.count_cons, List.count_append]
        omega
      refine takes_access (freed.mem_iff.mpr (by simp)) (takes_free_nodes freed ?_)
      exact takes_access List.mem_cons_self (takes_free (List.Perm.refl _) last)

end Rules

/-- A connection over `TorrentList`. -/
def handle (env : Environment) (tl : TorrentList) (c : Connection) :
    Option (TorrentList × Outcome) :=
  match requested c with
  | none => some (tl, .closed)
  | some (b, jobT) => do
      let result ← HttpQuery.httpParseQuery b jobT
      if result.ret = -1 then some (tl, .refused)
      else
        match jobT with
        | .announce =>
            let (tl, reply) ← (AnnounceHandler.jobHandleAnnounce env tl
              ⟨result.head, c.clientaddr⟩).toOption
            -- the end of the tracker, as in `workProcessJob`
            if PrintedInside reply then some (tl, .announced reply) else none
        | .scrape =>
            let (whole, s) ← (ScrapeHandler.jobHandleScrape env tl result.head c.fresh).toOption
            some (s.tl, .scraped whole s.sctx)
        | .stop => some (tl, .closed)

/-- How many entries of a refused query nobody frees. -/
def lostEntries (c : Connection) : Nat :=
  match requested c with
  | none => 0
  | some (b, jobT) =>
      match HttpQuery.httpParseQuery b jobT with
      | none => 0
      | some result => if result.ret = -1 then result.live.length else 0

structure Served (after : TorrentList) (outcome : Outcome) (leaked : Nat) (rest : List Nat)
    (out : HeapList × Outcome) (left : List Nat) : Prop where
  alike : Alike out.1 after
  outcome : out.2 = outcome
  blocks : ∃ lost : List Nat, lost.length = leaked ∧ left.Perm (listBlocks out.1 ++ (lost ++ rest))

section Rules
variable (a : Allocator Nat)

theorem announced_takes {env : Environment} {list : HeapList} {tl after : TorrentList}
    {kvs : List (Node HttpUriKv)} {clientaddr : InAddr} {reply : Reply} {job kvList : Nat}
    {given rest : List Nat} (alike : Alike list tl) (addressed : Addressed tl)
    (handled : AnnounceHandler.jobHandleAnnounce env tl ⟨kvs.map Node.val, clientaddr⟩ =
      .ok (after, reply)) (inside : PrintedInside reply)
    (owned : given.Perm ((addresses kvs ++ listBlocks list) ++ job :: kvList :: rest)) :
    Takes (do
        let (req, list, reply) ← jobHandleAnnounce a env list kvs clientaddr
        jobComplete kvs kvList req none job
        return (list, .announced reply)) given
      (Served after (.announced reply) 0 rest) := by
  refine takes_call (job_announce_takes a alike addressed handled inside) owned ?_
  rintro ⟨req, list', reply⟩ held ⟨kept, same, rfl⟩
  dsimp only at kept same ⊢
  have done : (held ++ job :: kvList :: rest).Perm (addresses kvs ++ kvList :: req ::
      (hashBlocks none ++ job :: (listBlocks list' ++ rest))) := by
    rw [List.perm_iff_count]
    intro p
    have counted := kept.count_eq p
    simp only [hashBlocks, List.nil_append, List.count_cons, List.count_append] at counted ⊢
    omega
  refine (complete_takes done).bind ?_
  rintro _ _ rfl
  exact takes_pure (List.Perm.refl _) ⟨same, rfl, [], rfl, List.Perm.refl _⟩

theorem scraped_takes {env : Environment} {list : HeapList} {tl : TorrentList}
    {kvs : List (Node HttpUriKv)} {fresh : Nat → FreshHash} {whole : Bool} {s : Scraping}
    {job kvList : Nat} {given rest : List Nat} (alike : Alike list tl)
    (handled : ScrapeHandler.jobHandleScrape env tl (kvs.map Node.val) fresh = .ok (whole, s))
    (owned : given.Perm ((addresses kvs ++ listBlocks list) ++ job :: kvList :: rest)) :
    Takes (do
        let ((req, head, hashes), list, whole, sctx) ← jobHandleScrape a env list kvs fresh
        jobComplete kvs kvList req (some (head, hashes)) job
        return (list, .scraped whole sctx)) given
      (Served s.tl (.scraped whole s.sctx) 0 rest) := by
  refine takes_call (job_scrape_takes a alike handled) owned ?_
  rintro ⟨⟨req, head, hashes⟩, list', whole, sctx⟩ held ⟨kept, same, rfl, rfl⟩
  dsimp only at kept same ⊢
  have done : (held ++ job :: kvList :: rest).Perm (addresses kvs ++ kvList :: req ::
      (hashBlocks (some (head, hashes)) ++ job :: (listBlocks list' ++ rest))) := by
    rw [List.perm_iff_count]
    intro p
    have counted := kept.count_eq p
    simp only [hashBlocks, List.count_cons, List.count_append] at counted ⊢
    omega
  refine (complete_takes done).bind ?_
  rintro _ _ rfl
  exact takes_pure (List.Perm.refl _) ⟨same, rfl, [], rfl, List.Perm.refl _⟩

theorem serve_takes {env : Environment} {list : HeapList} {tl after : TorrentList}
    {c : Connection} {outcome : Outcome} {rest : List Nat} (alike : Alike list tl)
    (addressed : Addressed tl) (handled : handle env tl c = some (after, outcome)) :
    Takes (serve a env list c) (listBlocks list ++ rest)
      (Served after outcome (lostEntries c) rest) := by
  unfold handle at handled
  unfold lostEntries
  refine takes_malloc a fun uri => takes_malloc a fun kvList => takes_access (by simp) ?_
  cases request : requested c with
  | none =>
      simp only [request] at handled
      cases handled
      refine takes_free (List.Perm.swap _ _ _) (takes_free (List.Perm.refl _) ?_)
      exact takes_pure (List.Perm.refl _) ⟨alike, rfl, [], rfl, List.Perm.refl _⟩
  | some both =>
  obtain ⟨b, jobT⟩ := both
  obtain ⟨_, -, -, -, chosen⟩ := requested_holds request
  simp only [request] at handled
  obtain ⟨result, parsed, handled⟩ := Option.bind_eq_some_iff.mp handled
  simp only [parsed]
  refine takes_access List.mem_cons_self ((query_takes a parsed).bind ?_)
  rintro ⟨ret, kvs⟩ left ⟨rfl, accepted, refused⟩
  dsimp only at accepted ⊢
  by_cases failed : result.ret = -1
  · simp only [if_pos failed] at handled ⊢
    cases handled
    obtain ⟨lost, count, blocks⟩ := refused failed
    have given : left.Perm (kvList :: uri :: (listBlocks list ++ (lost ++ rest))) := by
      rw [List.perm_iff_count]
      intro p
      have counted := blocks.count_eq p
      simp only [List.count_cons, List.count_append] at counted ⊢
      omega
    refine takes_free given (takes_free (List.Perm.refl _) (takes_pure (List.Perm.refl _) ?_))
    exact ⟨alike, rfl, lost, count, List.Perm.refl _⟩
  simp only [if_neg failed] at handled ⊢
  obtain ⟨entries, blocks⟩ := accepted failed
  refine takes_malloc a fun job => takes_malloc a fun we => takes_access (by simp) ?_
  have given : (we :: job :: left).Perm
      (uri :: we :: job :: (addresses kvs ++ kvList :: (listBlocks list ++ rest))) := by
    rw [List.perm_iff_count]
    intro p
    have counted := blocks.count_eq p
    simp only [List.count_cons, List.count_append] at counted ⊢
    omega
  -- the text of the request and the queue's entry are gone before the job is handled
  refine takes_free given (takes_access List.mem_cons_self (takes_free (List.Perm.refl _) ?_))
  have owned : (job :: (addresses kvs ++ kvList :: (listBlocks list ++ rest))).Perm
      ((addresses kvs ++ listBlocks list) ++ job :: kvList :: rest) := by
    rw [List.perm_iff_count]
    intro p
    simp only [List.count_cons, List.count_append]
    omega
  cases jobT with
  | stop => exact absurd rfl (job_not_stop chosen)
  | announce =>
      obtain ⟨⟨tl', reply⟩, ran, handled⟩ := Option.bind_eq_some_iff.mp handled
      obtain ⟨inside, same⟩ := Option.ite_none_right_eq_some.mp handled
      cases same
      rw [← entries] at ran
      exact announced_takes a alike addressed (to_option_ok ran) inside owned
  | scrape =>
      obtain ⟨⟨whole, s⟩, ran, handled⟩ := Option.bind_eq_some_iff.mp handled
      cases handled
      rw [← entries] at ran
      exact scraped_takes a alike (to_option_ok ran) owned

end Rules

theorem addressed_handle {env : Environment} {tl after : TorrentList} {c : Connection}
    {outcome : Outcome} (addressed : Addressed tl)
    (handled : handle env tl c = some (after, outcome)) : Addressed after := by
  unfold handle at handled
  cases request : requested c with
  | none =>
      simp only [request] at handled
      cases handled
      exact addressed
  | some both =>
  obtain ⟨b, jobT⟩ := both
  simp only [request] at handled
  obtain ⟨result, -, handled⟩ := Option.bind_eq_some_iff.mp handled
  split at handled
  · cases handled
    exact addressed
  cases jobT with
  | stop =>
      cases handled
      exact addressed
  | announce =>
      obtain ⟨⟨tl', reply⟩, ran, handled⟩ := Option.bind_eq_some_iff.mp handled
      obtain ⟨-, same⟩ := Option.ite_none_right_eq_some.mp handled
      cases same
      exact addressed_handled addressed (handler_cases (to_option_ok ran))
  | scrape =>
      obtain ⟨⟨whole, s⟩, ran, handled⟩ := Option.bind_eq_some_iff.mp handled
      cases handled
      exact addressed_scrape addressed (to_option_ok ran)

theorem announced_returns {env : Environment} {unset : Unset} {tl after : TorrentList} {job : Job}
    {out : Buffer} {wrote : Option Buffer}
    (ran : jobHandleAnnounceOut env unset tl job out = .ok (after, wrote)) :
    ∃ reply, AnnounceHandler.jobHandleAnnounce env tl job = .ok (after, reply) := by
  obtain ⟨ctx, built, -⟩ := bind_ok ran
  rw [out_of_built built] at ran
  cases sanitized : sanitizePeerReq ctx with
  | some error =>
      simp only [sanitized] at ran
      cases ran
      refine ⟨.failure (torrentMsgFailureGeneric (errorText error)), ?_⟩
      rw [AnnounceHandler.jobHandleAnnounce, built]
      simp only [Bind.bind, Except.bind, sanitized]
      rfl
  | none =>
      simp only [sanitized] at ran
      cases returned : AnnounceHandler.jobHandleAnnounce env tl job with
      | error fault => simp [returned, Except.map] at ran
      | ok both =>
          simp only [returned, Except.map] at ran
          cases ran
          exact ⟨both.2, rfl⟩

/-- Whatever the tracker survives is handled. -/
theorem served_handled {env : Environment} {tl after : TorrentList} {c : Connection}
    {served : ServedRequests.Served} (ran : ServedRequests.serve env tl c = some (after, served)) :
    ∃ outcome, handle env tl c = some (after, outcome) := by
  unfold ServedRequests.serve at ran
  unfold handle
  cases request : requested c with
  | none =>
      simp only [request] at ran
      cases ran
      exact ⟨.closed, rfl⟩
  | some both =>
  obtain ⟨b, jobT⟩ := both
  simp only [request] at ran ⊢
  obtain ⟨result, parsed, ran⟩ := Option.bind_eq_some_iff.mp ran
  simp only [parsed, Option.bind_eq_bind, Option.bind_some]
  by_cases failed : result.ret = -1
  · rw [if_pos failed] at ran ⊢
    obtain ⟨message, -, same⟩ := Option.bind_eq_some_iff.mp ran
    cases same
    exact ⟨.refused, rfl⟩
  rw [if_neg failed] at ran ⊢
  obtain ⟨⟨left, wrote⟩, worked, ran⟩ := Option.bind_eq_some_iff.mp ran
  obtain ⟨out, rfl, ran⟩ := Option.bind_eq_some_iff.mp ran
  obtain ⟨message, -, same⟩ := Option.bind_eq_some_iff.mp ran
  cases same
  have process := to_option_ok worked
  cases jobT with
  | stop =>
      cases process
      exact ⟨.closed, rfl⟩
  | announce =>
      obtain ⟨wrote, _, reply, printed, inside⟩ := announce_processed process
      obtain ⟨_, returned⟩ := announced_returns wrote
      cases returned.symm.trans printed
      exact ⟨.announced reply, by simp [printed, Except.toOption, inside]⟩
  | scrape =>
      cases returned : ScrapeHandler.jobHandleScrape env tl result.head c.fresh with
      | error fault => simp [workProcessJob, jobHandleScrapeOut, returned, Except.map] at process
      | ok both =>
          simp only [workProcessJob, jobHandleScrapeOut, returned, Except.map] at process
          obtain ⟨rfl, -⟩ := Prod.mk.inj (Except.ok.inj process)
          exact ⟨.scraped both.1 both.2.sctx, rfl⟩

/-! ## Runs -/

def serveAll (a : Allocator Nat) (env : Environment) :
    HeapList → List Connection → Program Nat (HeapList × List Outcome)
  | list, [] => pure (list, [])
  | list, c :: rest => do
      let (list, outcome) ← serve a env list c
      let (list, outcomes) ← serveAll a env list rest
      return (list, outcome :: outcomes)

def handleAll (env : Environment) :
    TorrentList → List Connection → Option (TorrentList × List Outcome)
  | tl, [] => some (tl, [])
  | tl, c :: rest => do
      let (tl, outcome) ← handle env tl c
      let (tl, outcomes) ← handleAll env tl rest
      some (tl, outcome :: outcomes)

/-- The torrents after connections of which none ends the tracker. -/
def survive (env : Environment) (tl : TorrentList) (cs : List Connection) : Option TorrentList :=
  cs.foldlM (fun tl c => (ServedRequests.serve env tl c).map Prod.fst) tl

theorem survived_handled {env : Environment} {tl after : TorrentList} {cs : List Connection}
    (survived : survive env tl cs = some after) :
    ∃ outcomes, handleAll env tl cs = some (after, outcomes) := by
  induction cs generalizing tl with
  | nil =>
      cases survived
      exact ⟨[], rfl⟩
  | cons c rest ih =>
      rw [survive, List.foldlM_cons] at survived
      obtain ⟨middle, first, later⟩ := Option.bind_eq_some_iff.mp survived
      obtain ⟨⟨_, served⟩, ran, rfl⟩ := Option.map_eq_some_iff.mp first
      obtain ⟨outcome, handled⟩ := served_handled ran
      obtain ⟨outcomes, all⟩ := ih later
      exact ⟨outcome :: outcomes, by simp [handleAll, handled, all]⟩

section Rules
variable (a : Allocator Nat)

structure ServedAll (after : TorrentList) (outcomes : List Outcome) (leaked : Nat) (rest : List Nat)
    (out : HeapList × List Outcome) (left : List Nat) : Prop where
  alike : Alike out.1 after
  outcomes : out.2 = outcomes
  blocks : ∃ lost : List Nat, lost.length = leaked ∧ left.Perm (listBlocks out.1 ++ (lost ++ rest))

theorem serve_all_takes {env : Environment} {list : HeapList} {tl after : TorrentList}
    {cs : List Connection} {outcomes : List Outcome} {rest : List Nat} (alike : Alike list tl)
    (addressed : Addressed tl) (handled : handleAll env tl cs = some (after, outcomes)) :
    Takes (serveAll a env list cs) (listBlocks list ++ rest)
      (ServedAll after outcomes (cs.map lostEntries).sum rest) := by
  induction cs generalizing list tl outcomes rest with
  | nil =>
      cases handled
      exact takes_pure (List.Perm.refl _) ⟨alike, rfl, [], rfl, List.Perm.refl _⟩
  | cons c others ih =>
      obtain ⟨⟨middle, outcome⟩, first, handled⟩ := Option.bind_eq_some_iff.mp handled
      obtain ⟨⟨last, later⟩, second, handled⟩ := Option.bind_eq_some_iff.mp handled
      cases handled
      refine (serve_takes a alike addressed first).bind ?_
      rintro ⟨list', _⟩ left ⟨same, rfl, lost, count, blocks⟩
      refine ((ih same (addressed_handle addressed first) second).perm blocks).bind ?_
      rintro ⟨list'', _⟩ held ⟨same', rfl, lost', count', blocks'⟩
      refine takes_pure blocks' ⟨same', rfl, lost' ++ lost, ?_, ?_⟩
      · rw [List.length_append, count, count', List.map_cons, List.sum_cons, Nat.add_comm]
      · rw [List.append_assoc]

omit a

theorem free_torrent_takes (te : HeapTorrent) :
    Takes (freeTorrent te) (innerBlocks te) fun _ left => left = [] := by
  have peers : (innerBlocks te).Perm (addresses te.te.peers ++ [te.peers, te.peerRwlk]) := by
    rw [List.perm_iff_count]
    intro p
    simp only [innerBlocks, List.count_cons, List.count_append, List.count_nil]
    omega
  refine takes_access (by simp [innerBlocks]) (takes_free_nodes peers ?_)
  refine takes_access List.mem_cons_self (takes_free (List.Perm.refl _) ?_)
  exact takes_access List.mem_cons_self (takes_free_last (List.Perm.refl _))

theorem stop_takes (list : HeapList) {rest : List Nat} :
    Takes (torrentStopPool list) (listBlocks list ++ rest) fun _ left => left = rest := by
  induction list generalizing rest with
  | nil => exact takes_pure (List.Perm.refl _) rfl
  | cons tp1 others ih =>
      -- unlinking the first torrent writes to the second, which is freed after it
      have next : ∀ p ∈ addresses (others.take 1), p ∈ listBlocks (tp1 :: others) ++ rest := by
        intro p member
        have listed := ((List.take_sublist 1 others).map Node.addr).subset member
        exact List.mem_append_left _ (List.mem_append_right _ (torrents_listed others p listed))
      have inner : (listBlocks (tp1 :: others) ++ rest).Perm
          (innerBlocks tp1.val ++ tp1.addr :: (listBlocks others ++ rest)) := by
        rw [List.perm_iff_count]
        intro p
        simp only [listBlocks, List.flatMap_cons, torrentBlocks, List.count_cons, List.count_append]
        omega
      refine takes_access (inner.mem_iff.mpr (by simp)) (takes_walk next ?_)
      refine takes_call (free_torrent_takes tp1.val) inner ?_
      rintro _ _ rfl
      exact takes_free (List.Perm.refl _) ih

end Rules

/-! ## What a run of the tracker leaves allocated -/

section Runs
variable (a : Allocator Nat) (env : Environment) (cs : List Connection) (after : TorrentList)
  (h : Heap Nat)

/-- Connections that the tracker survives touch no block that is not allocated, and leave
the blocks of the torrents and their peers and the entries of refused queries. The torrents
and the answers are those of the handlers whose addresses are not used again. -/
theorem connections_leave (survived : survive env .empty cs = some after) :
    ∃ list outcomes h' lost, (serveAll a env [] cs).run h = some ((list, outcomes), h') ∧
      handleAll env .empty cs = some (after, outcomes) ∧ Alike list after ∧
        lost.length = (cs.map lostEntries).sum ∧ Holds (listBlocks list ++ lost) h.live h' := by
  obtain ⟨outcomes, handled⟩ := survived_handled survived
  have alike : Alike [] TorrentList.empty := rfl
  have whole : Takes (serveAll a env [] cs) []
      (ServedAll after outcomes (cs.map lostEntries).sum []) :=
    serve_all_takes a alike addressed_empty handled
  obtain ⟨⟨list, answered⟩, h', left, ran, held, same, rfl, lost, count, blocks⟩ :=
    whole h.live h (holds_nothing h)
  rw [List.append_nil] at blocks
  exact ⟨list, answered, h', lost, ran, handled, same, count, held.perm blocks⟩

theorem connections_leave_scrape : ∃ after list outcomes h' lost,
    (serveAll .any sampleEnv [] [knownScrape]).run ⟨∅, 0⟩ = some ((list, outcomes), h') ∧
      handleAll sampleEnv .empty [knownScrape] = some (after, outcomes) ∧ Alike list after ∧
        lost.length = ([knownScrape].map lostEntries).sum ∧ Holds (listBlocks list ++ lost) ∅ h' := by
  have survived : (survive sampleEnv .empty [knownScrape]).isSome := by decide +kernel
  obtain ⟨after, went⟩ := Option.isSome_iff_exists.mp survived
  exact ⟨after, connections_leave .any sampleEnv [knownScrape] after ⟨∅, 0⟩ went⟩

/-- After `torrent_stop_pool` only these entries are left. -/
theorem stopped_leaves (survived : survive env .empty cs = some after) :
    ∃ h' lost, (do let (list, _) ← serveAll a env [] cs; torrentStopPool list).run h =
        some ((), h') ∧
      lost.length = (cs.map lostEntries).sum ∧ Holds lost h.live h' := by
  obtain ⟨outcomes, handled⟩ := survived_handled survived
  have alike : Alike [] TorrentList.empty := rfl
  have whole : Takes (do let (list, _) ← serveAll a env [] cs; torrentStopPool list) []
      fun _ left => left.length = (cs.map lostEntries).sum := by
    refine (serve_all_takes a alike addressed_empty handled).bind ?_
    rintro ⟨list, _⟩ left ⟨-, -, lost, count, blocks⟩
    refine ((stop_takes list).perm blocks).weaken ?_
    rintro _ _ rfl
    rw [List.append_nil, count]
  obtain ⟨_, h', lost, ran, held, count⟩ := whole h.live h (holds_nothing h)
  exact ⟨h', lost, ran, count, held⟩

/-- A scrape with a key of its own, which is refused. -/
def strayScrape : Connection :=
  { knownScrape with
    received := some (getScrape ++ ascii ['?'] ++ queryOf [(ascii ['a'], ascii ['b'])] ++
      ascii [' '] ++ http11 ++ [13, 10])
    read := by decide +kernel }

theorem stopped_leaves_stray : ∃ h' lost,
    (do let (list, _) ← serveAll .any sampleEnv [] [strayScrape, knownScrape]
        torrentStopPool list).run ⟨∅, 0⟩ = some ((), h') ∧
      lost.length = 1 ∧ Holds lost ∅ h' := by
  have survived : (survive sampleEnv .empty [strayScrape, knownScrape]).isSome := by decide +kernel
  obtain ⟨after, went⟩ := Option.isSome_iff_exists.mp survived
  have one : ([strayScrape, knownScrape].map lostEntries).sum = 1 := by decide +kernel
  rw [← one]
  exact stopped_leaves .any sampleEnv [strayScrape, knownScrape] after ⟨∅, 0⟩ went

end Runs

end Ttracker.ServedMemory
