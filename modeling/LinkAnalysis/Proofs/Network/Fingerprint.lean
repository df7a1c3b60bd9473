import LinkAnalysis.Proofs.Network.Rearrangement
import Mathlib

/-!
# Fingerprints

The content of a network is a row of bytes: every id is followed by a zero byte,
the ids of the nodes are followed by a mark, and then come the ids at the ends
of the links.  An id that contains the character zero ends early, so two
different networks can have the same content, and thereby the same fingerprint.
Without that character the content tells the ids and the links, although an id
may look like the mark: if the mark of one network were an id of another one,
that id would come twice.
-/

namespace LinkAnalysis

/-! ## Words that end with a zero byte -/

def terminated (words : List (List UInt8)) : List UInt8 :=
  words.flatMap (· ++ [0])

def ZeroFree (words : List (List UInt8)) : Prop := ∀ word ∈ words, 0 ∉ word

theorem terminated_cons (word : List UInt8) (words : List (List UInt8)) :
    terminated (word :: words) = word ++ 0 :: terminated words := by
  simp [terminated]

theorem ZeroFree.of_cons
    {word : List UInt8} {words : List (List UInt8)}
    (hzeroFree : ZeroFree (word :: words)) :
    0 ∉ word ∧ ZeroFree words :=
  List.forall_mem_cons.mp hzeroFree

theorem append_zero_cons_inj
    {a b u v : List UInt8}
    (ha : 0 ∉ a)
    (hb : 0 ∉ b)
    (happend : a ++ 0 :: u = b ++ 0 :: v) :
    a = b ∧ u = v := by
  induction a generalizing b with
  | nil =>
      cases b with
      | nil => exact ⟨rfl, (List.cons.inj happend).2⟩
      | cons y b =>
          exact absurd (List.mem_cons.mpr (Or.inl (List.cons.inj happend).1)) hb
  | cons x a ih =>
      cases b with
      | nil =>
          exact absurd
            (List.mem_cons.mpr (Or.inl (List.cons.inj happend).1.symm)) ha
      | cons y b =>
          obtain ⟨rfl, htail⟩ := List.cons.inj happend
          obtain ⟨rfl, rfl⟩ := ih (fun hmem => ha (List.mem_cons_of_mem _ hmem))
            (fun hmem => hb (List.mem_cons_of_mem _ hmem)) htail
          exact ⟨rfl, rfl⟩

/-- Of two rows of words with the same bytes the shorter one is the start of the
longer one. -/
theorem exists_eq_append_of_terminated
    {xs ys : List (List UInt8)} {u v : List UInt8}
    (hxs : ZeroFree xs)
    (hys : ZeroFree ys)
    (hle : xs.length ≤ ys.length)
    (hterminated : terminated xs ++ u = terminated ys ++ v) :
    ∃ more, ys = xs ++ more ∧ u = terminated more ++ v := by
  induction xs generalizing ys with
  | nil => exact ⟨ys, rfl, hterminated⟩
  | cons x xs ih =>
      cases ys with
      | nil => simp at hle
      | cons y ys =>
          obtain ⟨hx, hfree⟩ := hxs.of_cons
          obtain ⟨hy, hfree'⟩ := hys.of_cons
          rw [terminated_cons, terminated_cons,
            List.append_assoc, List.append_assoc, List.cons_append,
            List.cons_append] at hterminated
          obtain ⟨rfl, htail⟩ := append_zero_cons_inj hx hy hterminated
          obtain ⟨more, rfl, hu⟩ := ih hfree hfree' (by simpa using hle) htail
          exact ⟨more, rfl, hu⟩

theorem terminated_injective
    {xs ys : List (List UInt8)}
    (hxs : ZeroFree xs)
    (hys : ZeroFree ys)
    (hterminated : terminated xs = terminated ys) :
    xs = ys := by
  wlog hle : xs.length ≤ ys.length generalizing xs ys
  · exact (this hys hxs hterminated.symm (by omega)).symm
  · obtain ⟨more, rfl, hmore⟩ :=
      exists_eq_append_of_terminated (u := []) (v := []) hxs hys hle
        (by rw [hterminated])
    cases more with
    | nil => simp
    | cons word more => simp [terminated_cons] at hmore

theorem count_zero_terminated
    {words : List (List UInt8)}
    (hzeroFree : ZeroFree words) :
    (terminated words).count 0 = words.length := by
  induction words with
  | nil => rfl
  | cons word words ih =>
      obtain ⟨hword, hwords⟩ := hzeroFree.of_cons
      rw [terminated_cons, List.count_append, List.count_cons_self, ih hwords,
        List.count_eq_zero.mpr hword, List.length_cons, Nat.zero_add]

theorem exists_eq_cons_cons
    {words : List (List UInt8)}
    (heven : Even words.length)
    (hne : words ≠ []) :
    ∃ first second more, words = first :: second :: more := by
  match words, heven, hne with
  | [], _, hne => exact absurd rfl hne
  | [_], heven, _ => simp at heven
  | first :: second :: more, _, _ => exact ⟨first, second, more, rfl⟩

/-- The words of a network: its ids, none of them twice, and the ids at the ends
of its links. -/
structure Framed (ids ends : List (List UInt8)) : Prop where
  zeroFree : ZeroFree ids
  nodup : ids.Nodup
  subset : ends ⊆ ids
  even : Even ends.length

def framed (ids ends : List (List UInt8)) : List UInt8 :=
  terminated ids ++ 1 :: terminated ends

theorem Framed.zeroFree_ends
    {ids ends : List (List UInt8)}
    (hframed : Framed ids ends) :
    ZeroFree ends :=
  fun word hword => hframed.zeroFree word (hframed.subset hword)

/-- No further ids fit in: the first of them would be the mark together with the
first end. -/
theorem Framed.eq_nil_of_rest_eq
    {ids ends more ends' : List (List UInt8)}
    (hframed : Framed ids ends)
    (hframed' : Framed (ids ++ more) ends')
    (hrest : 1 :: terminated ends = terminated more ++ 1 :: terminated ends') :
    more = [] := by
  have hfree : ZeroFree more :=
    fun word hword => hframed'.zeroFree word (List.mem_append_right _ hword)
  have hcount := congrArg (List.count 0) hrest
  rw [List.count_append, count_zero_terminated hfree,
    List.count_cons_of_ne (by decide), List.count_cons_of_ne (by decide),
    count_zero_terminated hframed.zeroFree_ends,
    count_zero_terminated hframed'.zeroFree_ends] at hcount
  have heven : Even more.length := by
    have hends := hframed.even
    rw [hcount, Nat.even_add] at hends
    exact hends.mpr hframed'.even
  by_contra hne
  obtain ⟨first, second, more, rfl⟩ := exists_eq_cons_cons heven hne
  have hends : ends ≠ [] := by
    rintro rfl
    simp only [List.length_nil, List.length_cons] at hcount
    omega
  obtain ⟨low, high, ends, rfl⟩ := exists_eq_cons_cons hframed.even hends
  obtain ⟨hlow, hfree_ends⟩ := hframed.zeroFree_ends.of_cons
  obtain ⟨hfirst, hfree_more⟩ := hfree.of_cons
  have hmarked : 0 ∉ 1 :: low := by simp [hlow]
  simp only [terminated_cons, List.append_assoc, List.cons_append] at hrest
  rw [← List.cons_append] at hrest
  obtain ⟨-, hrest⟩ := append_zero_cons_inj hmarked hfirst hrest
  obtain ⟨rfl, -⟩ :=
    append_zero_cons_inj hfree_ends.of_cons.1 hfree_more.of_cons.1 hrest
  have hmem : high ∈ ids := hframed.subset (by simp)
  exact (List.nodup_append.mp hframed'.nodup).2.2 high hmem high (by simp) rfl

/-- The bytes of a network tell its words.  A longer row of ids would have to go
on with the mark and the first two ends of the shorter one; the second of these
ends is an id that came before. -/
theorem Framed.eq_of_framed_eq
    {ids ends ids' ends' : List (List UInt8)}
    (hframed : Framed ids ends)
    (hframed' : Framed ids' ends')
    (heq : framed ids ends = framed ids' ends') :
    ids = ids' ∧ ends = ends' := by
  wlog hle : ids.length ≤ ids'.length generalizing ids ends ids' ends'
  · obtain ⟨hids, hends⟩ := this hframed' hframed heq.symm (by omega)
    exact ⟨hids.symm, hends.symm⟩
  · obtain ⟨more, rfl, hrest⟩ :=
      exists_eq_append_of_terminated hframed.zeroFree hframed'.zeroFree hle heq
    obtain rfl := hframed.eq_nil_of_rest_eq hframed' hrest
    rw [List.append_nil]
    exact ⟨rfl, terminated_injective hframed.zeroFree_ends
      hframed'.zeroFree_ends (List.cons.inj hrest).2⟩

/-! ## Ids as words -/

theorem zero_notMem_utf8EncodeChar {c : Char} (hne : c ≠ '\x00') :
    0 ∉ String.utf8EncodeChar c := by
  have hpos : c.val.toNat ≠ 0 :=
    fun hzero => hne (Char.ext (UInt32.toNat_inj.mp hzero))
  have hbound : c.val.toNat < 0x110000 := by
    rcases c.valid with hc | ⟨-, hc⟩
    · exact hc.trans (by decide)
    · exact hc
  unfold String.utf8EncodeChar
  dsimp only
  split_ifs <;>
    simp only [List.mem_cons, List.not_mem_nil, or_false, ← UInt8.toNat_inj,
      UInt8.toNat_ofNat', UInt8.toNat_zero] <;>
    simp (disch := omega) only [Nat.mod_eq_of_lt] <;>
    omega

theorem zero_notMem_utf8Bytes {id : String} (hnotMem : '\x00' ∉ id.toList) :
    0 ∉ utf8Bytes id := by
  rw [utf8Bytes_eq_flatMap, List.mem_flatMap]
  rintro ⟨c, hc, hzero⟩
  exact zero_notMem_utf8EncodeChar (fun heq => hnotMem (heq ▸ hc)) hzero

theorem utf8Bytes_injective : Function.Injective utf8Bytes := by
  intro x y heq
  rcases lt_trichotomy x y with hlt | rfl | hlt
  · exact absurd (heq ▸ utf8Bytes_lt_iff.mpr hlt) (List.lt_irrefl _)
  · rfl
  · exact absurd (heq ▸ utf8Bytes_lt_iff.mpr hlt) (List.lt_irrefl _)

/-- No id contains the character zero. -/
def Snapshot.ZeroFree (s : Snapshot) : Prop :=
  ∀ node ∈ s.nodes, '\x00' ∉ node.id.toList

instance (s : Snapshot) : Decidable s.ZeroFree :=
  inferInstanceAs (Decidable (∀ node ∈ s.nodes, _))

namespace Network

/-- The unordered pairs of ids that links join. -/
def pairs (net : Network) : Set (Sym2 String) :=
  {pair | ∃ l ∈ net.links, s(net.idOf l.low, net.idOf l.high) = pair}

/-- The pairs of a network are those of the edges between two different
nodes. -/
theorem mem_pairs_ofSnapshot_iff (s : Snapshot) {pair : Sym2 String} :
    pair ∈ (ofSnapshot s).pairs ↔
      ∃ e ∈ s.edges, e.Proper (sortedIds s) ∧ e.joined = pair := by
  constructor
  · rintro ⟨l, hl, rfl⟩
    obtain ⟨x, y, hlt, hx, hy, -, e, he, hjoined⟩ :=
      (mem_links_ofSnapshot_iff s).mp hl
    refine ⟨e, he,
      proper_of_joined_eq (sortedIds_ascending s) hx hy hlt hjoined, ?_⟩
    rw [hjoined, ((getElem?_sortedIds_iff s).mp hx).2,
      ((getElem?_sortedIds_iff s).mp hy).2]
  · rintro ⟨e, he, hproper, rfl⟩
    obtain ⟨a, ha⟩ := List.mem_iff_getElem?.mp hproper.1.1
    obtain ⟨b, hb⟩ := List.mem_iff_getElem?.mp hproper.1.2
    have hne : a ≠ b := by
      rintro rfl
      exact hproper.2 (Option.some.inj (ha.symm.trans hb))
    obtain ⟨x, y, hx, hy, hjoined, -⟩ :=
      exists_normalized (sortedIds_ascending s) ha hb hne
    have hlt : min a b < max a b := by omega
    refine ⟨⟨min a b, max a b, x ++ "|" ++ y⟩, (mem_links_ofSnapshot_iff s).mpr
      ⟨x, y, hlt, hx, hy, rfl, e, he, hjoined⟩, ?_⟩
    rw [hjoined, ((getElem?_sortedIds_iff s).mp hx).2,
      ((getElem?_sortedIds_iff s).mp hy).2]

def idWords (net : Network) : List (List UInt8) := net.ids.toList.map utf8Bytes

/-- The ids at both ends of each link. -/
def endIds (net : Network) : List (String × String) :=
  net.links.toList.map fun l => (net.idOf l.low, net.idOf l.high)

def endWords (net : Network) : List (List UInt8) :=
  net.endIds.flatMap fun ends => [utf8Bytes ends.1, utf8Bytes ends.2]

theorem content_eq_framed (net : Network) :
    net.content = framed net.idWords net.endWords := by
  have hid : idBytes = fun id => utf8Bytes id ++ [0] := by
    funext id
    rw [idBytes, utf8Bytes_eq_flatMap]
  simp [content, framed, idWords, endWords, endIds, terminated, hid,
    List.flatMap_map, List.flatMap_assoc]

theorem mem_ids_of_mem_endIds
    {s : Snapshot} {ends : String × String}
    (hin : ends ∈ (ofSnapshot s).endIds) :
    ends.1 ∈ (ofSnapshot s).ids.toList ∧
      ends.2 ∈ (ofSnapshot s).ids.toList := by
  obtain ⟨l, hl, rfl⟩ := List.mem_map.mp hin
  obtain ⟨hlow, hhigh, -⟩ := link_ofSnapshot s (Array.mem_toList_iff.mp hl)
  have hmem : ∀ {v}, v < (ofSnapshot s).size →
      (ofSnapshot s).idOf v ∈ (ofSnapshot s).ids.toList := by
    intro v hv
    rw [ids_ofSnapshot]
    exact List.mem_of_getElem? ((getElem?_sortedIds_iff s).mpr ⟨hv, rfl⟩)
  exact ⟨hmem (hlow.trans hhigh), hmem hhigh⟩

theorem framed_ofSnapshot {s : Snapshot} (hs : s.ZeroFree) :
    Framed (ofSnapshot s).idWords (ofSnapshot s).endWords := by
  refine ⟨?_, ?_, ?_, ?_⟩
  · intro word hword
    rw [idWords, ids_ofSnapshot] at hword
    obtain ⟨id, hid, rfl⟩ := List.mem_map.mp hword
    obtain ⟨node, hnode, rfl⟩ :=
      List.mem_map.mp ((sortedIds_perm s).mem_iff.mp hid)
    exact zero_notMem_utf8Bytes (hs node hnode)
  · rw [idWords, ids_ofSnapshot]
    exact (sortedIds_nodup s).map utf8Bytes_injective
  · intro word hword
    obtain ⟨ends, hends, hmem⟩ := List.mem_flatMap.mp hword
    obtain ⟨hlow, hhigh⟩ := mem_ids_of_mem_endIds hends
    rcases List.mem_pair.mp hmem with rfl | rfl
    · exact List.mem_map_of_mem hlow
    · exact List.mem_map_of_mem hhigh
  · simp [endWords]

theorem endIds_eq_of_endWords_eq
    {xs ys : List (String × String)}
    (hwords : (xs.flatMap fun ends => [utf8Bytes ends.1, utf8Bytes ends.2]) =
      ys.flatMap fun ends => [utf8Bytes ends.1, utf8Bytes ends.2]) :
    xs = ys := by
  induction xs generalizing ys with
  | nil =>
      cases ys with
      | nil => rfl
      | cons y ys => simp at hwords
  | cons x xs ih =>
      cases ys with
      | nil => simp at hwords
      | cons y ys =>
          simp only [List.flatMap_cons, List.cons_append, List.nil_append,
            List.cons.injEq] at hwords
          obtain ⟨hlow, hhigh, hmore⟩ := hwords
          rw [ih hmore,
            Prod.ext (utf8Bytes_injective hlow) (utf8Bytes_injective hhigh)]

/-- Without the character zero in ids, the content of a network tells its ids
and its links. -/
theorem ids_eq_and_endIds_eq_of_content_eq
    {s t : Snapshot}
    (hs : s.ZeroFree)
    (ht : t.ZeroFree)
    (hcontent : (ofSnapshot s).content = (ofSnapshot t).content) :
    (ofSnapshot s).ids = (ofSnapshot t).ids ∧
      (ofSnapshot s).endIds = (ofSnapshot t).endIds := by
  rw [content_eq_framed, content_eq_framed] at hcontent
  obtain ⟨hids, hends⟩ :=
    (framed_ofSnapshot hs).eq_of_framed_eq (framed_ofSnapshot ht) hcontent
  exact ⟨Array.toList_inj.mp (List.map_injective_iff.mpr utf8Bytes_injective
      hids), endIds_eq_of_endWords_eq hends⟩

theorem mem_pairs_iff_exists_endIds {net : Network} {pair : Sym2 String} :
    pair ∈ net.pairs ↔ ∃ ends ∈ net.endIds, s(ends.1, ends.2) = pair := by
  simp [pairs, endIds]

theorem content_eq_of_pairs_eq
    {s t : Snapshot}
    (hids : sortedIds s = sortedIds t)
    (hpairs : (ofSnapshot s).pairs = (ofSnapshot t).pairs) :
    (ofSnapshot s).content = (ofSnapshot t).content := by
  have hedges : ∀ u : Snapshot, ∀ x ∈ sortedIds u, ∀ y ∈ sortedIds u, x ≠ y →
      ((∃ e ∈ u.edges, e.joined = s(x, y)) ↔
        s(x, y) ∈ (ofSnapshot u).pairs) := by
    intro u x hx y hy hne
    rw [mem_pairs_ofSnapshot_iff]
    refine exists_congr fun e => and_congr_right fun _ =>
      ⟨fun hjoined => ⟨?_, hjoined⟩, And.right⟩
    rcases Sym2.eq_iff.mp hjoined with ⟨hsource, htarget⟩ | ⟨hsource, htarget⟩
    · exact ⟨⟨hsource ▸ hx, htarget ▸ hy⟩, by rwa [hsource, htarget]⟩
    · exact ⟨⟨hsource ▸ hy, htarget ▸ hx⟩,
        by rw [hsource, htarget]; exact hne.symm⟩
  have hlinks : (ofSnapshot s).links = (ofSnapshot t).links := by
    refine links_eq_of_joined_iff hids fun x hx y hy hne => ?_
    rw [hedges t x hx y hy hne, ← hpairs]
    exact hedges s x (hids ▸ hx) y (hids ▸ hy) hne
  have hnames : (ofSnapshot s).ids = (ofSnapshot t).ids := by
    rw [ids_ofSnapshot, ids_ofSnapshot, hids]
  have hidOf : (ofSnapshot s).idOf = (ofSnapshot t).idOf := by
    funext v
    rw [idOf, idOf, hnames]
  rw [content, content, hnames, hlinks, hidOf]

theorem fingerprint_eq_of_content_eq
    {net net' : Network}
    (hcontent : net.content = net'.content) :
    net.fingerprint = net'.fingerprint := by
  rw [fingerprint, fingerprint, hcontent]

/-- A link between two ids, the second of which contains the character zero. -/
def zeroBehindSnapshot : Snapshot where
  nodes := [Node.bare "a", Node.bare "b\x00c"]
  edges := [Edge.bare "a" "b\x00c"]
  id_ne_empty := by decide
  ids_nodup := by decide

/-- A link between two other ids, the first of which contains the character
zero. -/
def zeroBeforeSnapshot : Snapshot where
  nodes := [Node.bare "a\x00b", Node.bare "c"]
  edges := [Edge.bare "a\x00b" "c"]
  id_ne_empty := by decide
  ids_nodup := by decide

/-- Two networks with different ids may have the same fingerprint: a zero inside
an id reads like the end of an id. -/
theorem fingerprint_zeroBehindSnapshot_eq :
    (ofSnapshot zeroBehindSnapshot).content =
        (ofSnapshot zeroBeforeSnapshot).content ∧
      (ofSnapshot zeroBehindSnapshot).fingerprint =
        (ofSnapshot zeroBeforeSnapshot).fingerprint ∧
      "a" ∈ zeroBehindSnapshot.nodes.map Node.id ∧
      "a" ∉ zeroBeforeSnapshot.nodes.map Node.id := by
  have hcontent : (ofSnapshot zeroBehindSnapshot).content =
      (ofSnapshot zeroBeforeSnapshot).content := by
    cbv
  exact ⟨hcontent, fingerprint_eq_of_content_eq hcontent, by decide, by decide⟩

/-- Networks whose ids do not contain the character zero, and whose contents are
no collision of the digest, have the same fingerprint exactly if they have the
same ids and the same links. -/
theorem fingerprint_eq_iff
    {s t : Snapshot}
    (hs : s.ZeroFree)
    (ht : t.ZeroFree)
    (hdigest : Digest.Blake3.hex (ofSnapshot s).content =
        Digest.Blake3.hex (ofSnapshot t).content →
      (ofSnapshot s).content = (ofSnapshot t).content) :
    (ofSnapshot s).fingerprint = (ofSnapshot t).fingerprint ↔
      (∀ id, id ∈ s.nodes.map Node.id ↔ id ∈ t.nodes.map Node.id) ∧
        (ofSnapshot s).pairs = (ofSnapshot t).pairs := by
  constructor
  · intro hfingerprint
    have hcontent :=
      hdigest (String.append_right_inj "blake3:" |>.mp hfingerprint)
    obtain ⟨hids, hends⟩ := ids_eq_and_endIds_eq_of_content_eq hs ht hcontent
    rw [ids_ofSnapshot, ids_ofSnapshot] at hids
    refine ⟨fun id => ?_, ?_⟩
    · rw [← (sortedIds_perm s).mem_iff, ← (sortedIds_perm t).mem_iff,
        List.toArray_inj hids]
    · ext pair
      rw [mem_pairs_iff_exists_endIds, mem_pairs_iff_exists_endIds, hends]
  · rintro ⟨hids, hpairs⟩
    refine fingerprint_eq_of_content_eq (content_eq_of_pairs_eq ?_ hpairs)
    refine (sortedIds_ascending s).eq_of_mem_iff
      (sortedIds_ascending t) fun id => ?_
    rw [(sortedIds_perm s).mem_iff, (sortedIds_perm t).mem_iff, hids]

/-- A link between an id and the same id behind the mark. -/
def markSnapshot : Snapshot where
  nodes := [Node.bare "a", Node.bare "\x01a"]
  edges := [Edge.bare "a" "\x01a"]
  id_ne_empty := by decide
  ids_nodup := by decide

def turnedMarkSnapshot : Snapshot where
  nodes := [Node.bare "\x01a", Node.bare "a"]
  edges := [Edge.bare "\x01a" "a", Edge.bare "a" "\x01a"]
  id_ne_empty := by decide
  ids_nodup := by decide

theorem fingerprint_eq_iff_markSnapshot :
    (ofSnapshot markSnapshot).fingerprint =
        (ofSnapshot turnedMarkSnapshot).fingerprint ↔
      (∀ id, id ∈ markSnapshot.nodes.map Node.id ↔
          id ∈ turnedMarkSnapshot.nodes.map Node.id) ∧
        (ofSnapshot markSnapshot).pairs =
          (ofSnapshot turnedMarkSnapshot).pairs := by
  have hcontent : (ofSnapshot markSnapshot).content =
      (ofSnapshot turnedMarkSnapshot).content := by
    cbv
  exact fingerprint_eq_iff (by decide) (by decide) fun _ => hcontent

end Network

end LinkAnalysis
