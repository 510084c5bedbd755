import RethProcessor.TrieCacheOps

/-! Caches are never stale. Every way to obtain a trie leaves each node with an empty cache
or with the reference that is computed from its data. -/
namespace RethProcessor
namespace CachedNode
open Paths

section Keccak
variable (keccak : Bytes → B256)

/-- The caches below a node are right, whatever its own one. -/
def CoherentBelow : CachedNode → Prop
  | .branch _ children => ∀ i c, children i = some c → Coherent keccak c
  | .extension _ _ child => Coherent keccak child
  | .null _ | .leaf _ _ _ | .digest _ _ => True

end Keccak

/-- An operation panics, or it changes what it works on into something good, or it changes nothing. -/
def Sound {α : Type} (Good : α → Prop) (a : α) (r : Except Failure Bool × α) : Prop :=
  r.1 = .error .panic ∨ (r.1 = .ok true ∧ Good r.2) ∨ (r.1 ≠ .ok true ∧ r.2 = a)

variable {keccak : Bytes → B256}

theorem Coherent.children {n : CachedNode} (h : Coherent keccak n) : CoherentBelow keccak n := by
  cases h with
  | null | leaf | digest => trivial
  | branch _ hc => exact hc
  | extension _ hc => exact hc

theorem CoherentBelow.of_cacheOk {n : CachedNode} (h : CoherentBelow keccak n) (hok : CacheOk keccak n) :
    Coherent keccak n := by
  cases n with
  | null => exact .null hok
  | leaf => exact .leaf hok
  | digest => exact .digest hok
  | branch => exact .branch hok h
  | extension => exact .extension hok h

theorem cacheOk_of_empty {n : CachedNode} (h : n.cache = none) : CacheOk keccak n := by
  intro r hr
  rw [h] at hr
  cases hr

/-- A node with an empty cache is as good as what is below it. -/
theorem CoherentBelow.of_empty {n : CachedNode} (h : CoherentBelow keccak n) (he : n.cache = none) :
    Coherent keccak n := h.of_cacheOk (cacheOk_of_empty he)

theorem CoherentBelow.invalidate {n : CachedNode} (h : CoherentBelow keccak n) :
    Coherent keccak n.invalidateRefCache := by
  have hb : CoherentBelow keccak n.invalidateRefCache := by
    cases n with
    | null | leaf | digest => trivial
    | branch => exact h
    | extension => exact h
  exact hb.of_empty (cache_setCache n none)

theorem CoherentBelow.changed {n m : CachedNode} (h : CoherentBelow keccak m) :
    Sound (Coherent keccak) n (changed m) := .inr (.inl ⟨rfl, h.invalidate⟩)

theorem sound_refused {α : Type} {Good : α → Prop} {a : α} {res : Except Failure Bool} (h : res ≠ .ok true) :
    Sound Good a (res, a) := .inr (.inr ⟨h, rfl⟩)

theorem sound_onChange {α : Type} {Good : α → Prop} {a : α} {n : CachedNode} {r : Except Failure Bool × α}
    {unchanged : α → CachedNode} {after : α → CachedMutation} (hr : Sound Good a r) (hu : unchanged a = n)
    (ha : Good r.2 → Sound (Coherent keccak) n (after r.2)) :
    Sound (Coherent keccak) n (onChange r unchanged after) := by
  unfold onChange
  rcases hr with hp | ⟨hok, hgood⟩ | ⟨hno, hsame⟩
  · simp only [hp]
    exact .inl rfl
  · simp only [hok]
    exact ha hgood
  · split
    · next h => exact absurd h hno
    · rw [hsame, hu]
      exact sound_refused hno

/-- A failure of reading a path is a panic. -/
theorem prefixNibs_error {path : Bytes} {f : Failure} (h : prefixNibs path = .error f) : f = .panic := by
  cases path with
  | nil => exact (Except.error.inj h).symm
  | cons => cases h

theorem CoherentBelow.splitBranch {left right : CachedNode} (hl : Coherent keccak left)
    (hr : Coherent keccak right) (cache : Option MptNodeReference) (common : List Nibble) (a b : Nibble) :
    CoherentBelow keccak (splitBranch cache common a left b right) := by
  have hall (i : Nibble) (c : CachedNode)
      (hc : Function.update (Function.update (fun _ => none) a (some left)) b (some right) i = some c) :
      Coherent keccak c := by
    by_cases hb : i = b
    · subst hb
      rw [Function.update_self] at hc
      exact Option.some.inj hc ▸ hr
    · rw [Function.update_of_ne hb] at hc
      by_cases ha : i = a
      · subst ha
        rw [Function.update_self] at hc
        exact Option.some.inj hc ▸ hl
      · rw [Function.update_of_ne ha] at hc
        cases hc
  unfold CachedNode.splitBranch
  split
  · exact CoherentBelow.of_empty (n := .branch none _) hall rfl
  · exact hall

theorem coherent_leaf (path value : Bytes) : Coherent keccak (.leaf none path value) :=
  CoherentBelow.of_empty (n := .leaf none path value) trivial rfl

theorem coherent_update {children : Nibble → Option CachedNode}
    (hall : ∀ i c, children i = some c → Coherent keccak c) (x : Nibble) {o : Option CachedNode}
    (ho : ∀ c, o = some c → Coherent keccak c) (i : Nibble) (c : CachedNode)
    (hc : Function.update children x o i = some c) : Coherent keccak c := by
  by_cases hi : i = x
  · subst hi
    rw [Function.update_self] at hc
    exact ho c hc
  · rw [Function.update_of_ne hi] at hc
    exact hall i c hc

theorem insertIntoLeaf_sound (cache : Option MptNodeReference) (path oldValue : Bytes)
    (selfNibs key : List Nibble) (value : Bytes) :
    Sound (Coherent keccak) (.leaf cache path oldValue)
      (insertIntoLeaf cache path oldValue selfNibs key value) := by
  unfold insertIntoLeaf
  simp only
  split
  · split
    · exact sound_refused (by simp)
    · exact CoherentBelow.changed trivial
  · split
    · exact sound_refused (by simp [valueInBranch])
    · split
      · exact (CoherentBelow.splitBranch (coherent_leaf _ _) (coherent_leaf _ _) _ _ _ _).changed
      · exact .inl rfl

theorem splitExtension_sound {child : CachedNode} (hc : Coherent keccak child)
    (cache : Option MptNodeReference) (path : Bytes) (selfNibs key : List Nibble) (value : Bytes) :
    Sound (Coherent keccak) (.extension cache path child)
      (splitExtension cache path child selfNibs key value) := by
  unfold splitExtension
  simp only
  split
  · refine (CoherentBelow.splitBranch ?_ (coherent_leaf _ _) _ _ _ _).changed
    split
    · exact CoherentBelow.of_empty (n := .extension none _ child) hc rfl
    · exact hc
  · exact .inl rfl

/-- An insertion that changes nodes drops their caches and those of all nodes above. -/
theorem Coherent.insertInternal {n : CachedNode} (h : Coherent keccak n) (key : List Nibble) (value : Bytes) :
    Sound (Coherent keccak) n (n.insertInternal key value) := by
  induction h generalizing key with
  | null => exact CoherentBelow.changed trivial
  | digest => exact sound_refused (by simp [notResolved])
  | @leaf cache path oldValue =>
      simp only [CachedNode.insertInternal]
      cases hp : prefixNibs path with
      | error f => exact .inl (by rw [prefixNibs_error hp])
      | ok selfNibs => exact insertIntoLeaf_sound ..
  | @branch cache children _ hall ih =>
      cases key with
      | nil => exact sound_refused (by simp [valueInBranch])
      | cons i tail =>
          have hchild : Sound (fun o => ∀ c, o = some c → Coherent keccak c) (children i)
              (insertChild (children i) tail value) := by
            cases hc : children i with
            | none =>
                refine .inr (.inl ⟨rfl, ?_⟩)
                intro c h
                exact Option.some.inj h ▸ coherent_leaf _ _
            | some c =>
                rcases ih i c hc tail with hp | ⟨hok, hgood⟩ | ⟨hno, hsame⟩
                · exact .inl hp
                · exact .inr (.inl ⟨hok, fun d hd => Option.some.inj hd ▸ hgood⟩)
                · exact .inr (.inr ⟨hno, congrArg some hsame⟩)
          apply sound_onChange hchild (by rw [Function.update_eq_self])
          intro hgood
          exact CoherentBelow.changed (coherent_update hall i hgood)
  | @extension cache path child _ hc ih =>
      simp only [CachedNode.insertInternal]
      cases hp : prefixNibs path with
      | error f => exact .inl (by rw [prefixNibs_error hp])
      | ok selfNibs =>
          simp only
          split
          · apply sound_onChange (ih _) rfl
            intro hgood
            exact CoherentBelow.changed hgood
          · split
            · exact sound_refused (by simp [valueInBranch])
            · exact splitExtension_sound hc ..

theorem mem_remaining {children : Nibble → Option CachedNode} {x : Nibble × CachedNode}
    (h : x ∈ remaining children) : children x.1 = some x.2 := by
  obtain ⟨i, -, hi⟩ := List.mem_filterMap.mp h
  obtain ⟨c, hc, rfl⟩ := Option.map_eq_some_iff.mp hi
  exact hc

theorem collapse_sound {children : Nibble → Option CachedNode}
    (hall : ∀ i c, children i = some c → Coherent keccak c) (cache : Option MptNodeReference) (n : CachedNode) :
    Sound (Coherent keccak) n (collapse cache children) := by
  unfold collapse
  split
  · exact .inl rfl
  · next index orphan hrem =>
      have horphan := hall index orphan (mem_remaining (hrem ▸ List.mem_singleton_self _))
      cases orphan with
      | null => exact .inl rfl
      | branch own below => exact CoherentBelow.changed horphan
      | digest own d => exact CoherentBelow.changed horphan
      | leaf own path value =>
          simp only
          cases hp : prefixNibs path with
          | error f => exact .inl (by rw [prefixNibs_error hp])
          | ok nibs => exact CoherentBelow.changed trivial
      | extension own path child =>
          simp only
          cases hp : prefixNibs path with
          | error f => exact .inl (by rw [prefixNibs_error hp])
          | ok nibs => exact CoherentBelow.changed horphan.children
  · exact CoherentBelow.changed hall

theorem mergeExtension_sound {child : CachedNode} (hc : Coherent keccak child)
    (cache : Option MptNodeReference) (path : Bytes) (selfNibs : List Nibble) (n : CachedNode) :
    Sound (Coherent keccak) n (mergeExtension cache path selfNibs child) := by
  cases child with
  | null => exact CoherentBelow.changed trivial
  | branch own below => exact CoherentBelow.changed hc
  | digest own d => exact CoherentBelow.changed hc
  | leaf own childPath value =>
      simp only [mergeExtension]
      cases hp : prefixNibs childPath with
      | error f => exact .inl (by rw [prefixNibs_error hp])
      | ok nibs => exact CoherentBelow.changed trivial
  | extension own childPath node =>
      simp only [mergeExtension]
      cases hp : prefixNibs childPath with
      | error f => exact .inl (by rw [prefixNibs_error hp])
      | ok nibs => exact CoherentBelow.changed hc.children

/-- A deletion that changes nodes drops their caches and those of all nodes above. -/
theorem Coherent.deleteInternal {n : CachedNode} (h : Coherent keccak n) (key : List Nibble) :
    Sound (Coherent keccak) n (n.deleteInternal key) := by
  induction h generalizing key with
  | null => exact sound_refused (by simp)
  | digest => exact sound_refused (by simp [notResolved])
  | @leaf cache path value =>
      simp only [CachedNode.deleteInternal]
      cases hp : prefixNibs path with
      | error f => exact .inl (by rw [prefixNibs_error hp])
      | ok nibs =>
          simp only
          split
          · exact CoherentBelow.changed trivial
          · exact sound_refused (by simp)
  | @branch cache children _ hall ih =>
      cases key with
      | nil => exact sound_refused (by simp [valueInBranch])
      | cons i tail =>
          have hchild : Sound (fun o => ∀ c, o = some c → Coherent keccak c) (children i)
              (deleteChild (children i) tail) := by
            cases hc : children i with
            | none => exact sound_refused (by simp)
            | some c =>
                rcases ih i c hc tail with hp | ⟨hok, hgood⟩ | ⟨hno, hsame⟩
                · exact .inl hp
                · refine .inr (.inl ⟨hok, ?_⟩)
                  intro d hd
                  simp only [deleteChild] at hd
                  split at hd
                  · cases hd
                  · exact Option.some.inj hd ▸ hgood
                · refine .inr (.inr ⟨hno, ?_⟩)
                  simp only [deleteChild, hsame]
                  rw [if_neg fun h => hno h.1]
          apply sound_onChange hchild (by rw [Function.update_eq_self])
          intro hgood
          exact collapse_sound (coherent_update hall i hgood) cache _
  | @extension cache path child _ hc ih =>
      simp only [CachedNode.deleteInternal]
      cases hp : prefixNibs path with
      | error f => exact .inl (by rw [prefixNibs_error hp])
      | ok selfNibs =>
          simp only
          cases selfNibs.isPrefixOf? key with
          | none => exact sound_refused (by simp)
          | some tail => exact sound_onChange (ih tail) rfl fun hgood => mergeExtension_sound hgood ..

theorem coherent_fresh (n : MptNode) : Coherent keccak (fresh n) := by
  induction n with
  | null => exact CoherentBelow.of_empty (n := .null none) trivial rfl
  | leaf path value => exact coherent_leaf path value
  | digest d => exact CoherentBelow.of_empty (n := .digest none d) trivial rfl
  | extension path child ih => exact CoherentBelow.of_empty (n := .extension none path _) ih rfl
  | branch children ih =>
      refine CoherentBelow.of_empty (n := .branch none _) ?_ rfl
      intro i c hc
      cases hi : children i with
      | none =>
          simp only [hi, freshChild] at hc
          cases hc
      | some m =>
          simp only [hi, freshChild] at hc
          exact Option.some.inj hc ▸ ih i m hi

theorem Coherent.hashed {n : CachedNode} (h : Coherent keccak n) : Coherent keccak (n.hashed keccak).2 := by
  cases n with
  | null => exact h
  | branch | leaf | extension | digest => exact h.reference.2.2

theorem replaceChild_coherent {i : Nat} {node replacement p : CachedNode} {childRef : B256}
    (hn : Coherent keccak node) (hr : Coherent keccak replacement)
    (h : replaceChild i node childRef replacement = .ok p) : Coherent keccak p := by
  cases hn with
  | null | leaf | digest => cases h
  | @branch cache children _ hall =>
      simp only [replaceChild] at h
      split at h
      · next x _ =>
          cases h
          refine CoherentBelow.of_empty (n := .branch none _) (coherent_update hall x ?_) rfl
          intro c hc
          exact Option.some.inj hc ▸ hr
      · cases h
  | @extension cache path child _ hc =>
      simp only [replaceChild] at h
      split at h
      · cases h
        exact CoherentBelow.of_empty (n := .extension none path replacement) hr rfl
      · cases h

theorem linkNodes_coherent {nodes : List CachedNode} (hall : ∀ m ∈ nodes, Coherent keccak m) (i : Nat)
    {n : CachedNode} (h : linkNodes keccak i nodes = .ok (some n)) : Coherent keccak n := by
  induction nodes generalizing i n with
  | nil => cases h
  | cons node rest ih =>
      have hrest (m : CachedNode) (hm : m ∈ rest) : Coherent keccak m := hall m (List.mem_cons_of_mem _ hm)
      have hnode := hall node List.mem_cons_self
      rw [linkNodes] at h
      cases hlink : linkNodes keccak (i + 1) rest with
      | error e =>
          rw [hlink] at h
          cases h
      | ok o =>
          rw [hlink] at h
          cases o with
          | none => exact Option.some.inj (Except.ok.inj h) ▸ hnode
          | some replacement =>
              have hfilled := (ih hrest (i + 1) hlink).reference.2.2
              simp only at h
              split at h
              · cases h
              · next childRef filled href =>
                  rw [href] at hfilled
                  cases hp : replaceChild i node childRef filled with
                  | error e =>
                      rw [hp] at h
                      cases h
                  | ok p =>
                      rw [hp] at h
                      obtain rfl := Option.some.inj (Except.ok.inj h)
                      exact replaceChild_coherent hnode hfilled hp

theorem mptFromProof_coherent {nodes : List CachedNode} (hall : ∀ m ∈ nodes, Coherent keccak m)
    {n : CachedNode} (h : mptFromProof keccak nodes = .ok n) : Coherent keccak n := by
  rw [mptFromProof] at h
  cases hlink : linkNodes keccak 0 nodes with
  | error e =>
      rw [hlink] at h
      cases h
  | ok o =>
      rw [hlink] at h
      cases h
      cases o with
      | none => exact coherent_fresh .null
      | some n => exact linkNodes_coherent hall 0 hlink

theorem linkNodes_erase {nodes : List CachedNode} (hall : ∀ m ∈ nodes, Coherent keccak m) (i : Nat) :
    Option.map erase <$> linkNodes keccak i nodes = RethProcessor.linkNodes keccak i (nodes.map erase) := by
  induction nodes generalizing i with
  | nil => rfl
  | cons node rest ih =>
      have hrest (m : CachedNode) (hm : m ∈ rest) : Coherent keccak m := hall m (List.mem_cons_of_mem _ hm)
      have hplain := ih hrest (i + 1)
      rw [List.map_cons, linkNodes, RethProcessor.linkNodes]
      cases hlink : linkNodes keccak (i + 1) rest with
      | error e =>
          rw [hlink] at hplain
          rw [← hplain]
          rfl
      | ok o =>
          rw [hlink] at hplain
          rw [← hplain]
          cases o with
          | none => rfl
          | some replacement =>
              have hcoherent := (linkNodes_coherent hrest (i + 1) hlink).reference
              cases href : replacement.reference keccak with
              | mk r filled =>
                  rw [href] at hcoherent
                  have hfilled : filled.erase = replacement.erase := hcoherent.2.1
                  have hr : filled.erase.reference keccak = r := by
                    rw [hfilled]
                    exact hcoherent.1.symm
                  simp only [href, Except.map_ok, Option.map_some, ← hfilled, hr]
                  cases r with
                  | bytes bs => rfl
                  | digest d =>
                      simp only [← replaceChild_erase]
                      cases replaceChild i node d filled with
                      | error e => rfl
                      | ok p => rfl

/-- The caches of the nodes of a proof have no influence on the trie that they make. -/
theorem mptFromProof_erase {nodes : List CachedNode} (hall : ∀ m ∈ nodes, Coherent keccak m) :
    erase <$> mptFromProof keccak nodes = RethProcessor.mptFromProof keccak (nodes.map erase) := by
  rw [mptFromProof, RethProcessor.mptFromProof, ← linkNodes_erase hall]
  cases linkNodes keccak 0 nodes with
  | error e => rfl
  | ok o =>
      cases o with
      | none => rfl
      | some n => rfl

theorem mapChildren_some {f : CachedNode → Option CachedNode} {children ps : Nibble → Option CachedNode}
    (h : mapChildren f children = some ps) {i : Nibble} {p : CachedNode} (hp : ps i = some p) :
    ∃ c, children i = some c ∧ f c = some p := by
  unfold mapChildren at h
  split at h
  · cases h
    exact Option.bind_eq_some_iff.mp hp
  · cases h

/-- What resolution moves keeps its caches, what it makes anew has none. -/
theorem resolveNodes_coherent {store : Store} (hstore : ∀ r m, store r = some m → Coherent keccak m)
    {fuel : Nat} {root p : CachedNode} (hroot : Coherent keccak root)
    (h : resolveNodes store fuel root = some p) : Coherent keccak p := by
  induction fuel generalizing root p with
  | zero => cases h
  | succ fuel ih =>
      cases hroot with
      | null hok => exact Option.some.inj h ▸ .null hok
      | leaf hok => exact Option.some.inj h ▸ .leaf hok
      | @branch cache children _ hall =>
          rw [resolveNodes, Option.map_eq_some_iff] at h
          obtain ⟨ps, hps, rfl⟩ := h
          refine CoherentBelow.of_empty (n := .branch none ps) ?_ rfl
          intro i p hp
          obtain ⟨c, hc, hres⟩ := mapChildren_some hps hp
          exact ih (hall i c hc) hres
      | @extension cache path child _ hc =>
          rw [resolveNodes, Option.map_eq_some_iff] at h
          obtain ⟨q, hq, rfl⟩ := h
          exact CoherentBelow.of_empty (n := .extension none path q) (ih hc hq) rfl
      | @digest cache d hok =>
          simp only [resolveNodes] at h
          split at h
          · next node hnode => exact ih (hstore _ _ hnode) h
          · exact Option.some.inj h ▸ .digest hok

theorem Resolves.coherent {store : Store} (hstore : ∀ r m, store r = some m → Coherent keccak m)
    {root p : CachedNode} (hroot : Coherent keccak root) (h : Resolves store root p) : Coherent keccak p := by
  obtain ⟨enough, h⟩ := h
  exact resolveNodes_coherent hstore hroot (h enough (Nat.le_refl _))

/-- The calls that a trie takes. -/
inductive Call where
  | insert (key value : Bytes)
  | insertRlp (key encoded : Bytes)
  | delete (key : Bytes)
  | clear
  | reference
  | hash
  | clone
  | serde

/-- The node after an operation that returns, be it with an error. -/
def afterwards : CachedMutation → Option CachedNode
  | (.error .panic, _) => none
  | (_, n) => some n

section Keccak
variable (keccak : Bytes → B256)

/-- The node after a call, none after a panic. A clone has the caches of the original. -/
def call (n : CachedNode) : Call → Option CachedNode
  | .insert key value => afterwards (n.insert key value)
  | .insertRlp key encoded => afterwards (n.insertRlp key encoded)
  | .delete key => afterwards (n.delete key)
  | .clear => some n.clear
  | .reference => some (n.reference keccak).2
  | .hash => some (n.hashed keccak).2
  | .clone => some n
  | .serde => some n.serde

/-- Every trie that the program can come by. -/
inductive Obtained : CachedNode → Prop
  | default : Obtained (.null none)
  | decode {bytes : Bytes} {n : CachedNode} : CachedNode.decode bytes = .ok n → Obtained n
  | mptFromProof {nodes : List CachedNode} {n : CachedNode} : (∀ m ∈ nodes, Obtained m) →
      CachedNode.mptFromProof keccak nodes = .ok n → Obtained n
  | resolveNodes {store : Store} {root n : CachedNode} : Obtained root →
      (∀ r m, store r = some m → Obtained m) → Resolves store root n → Obtained n
  | calls {n m : CachedNode} {cs : List Call} : Obtained n → cs.foldlM (call keccak) n = some m → Obtained m

end Keccak

theorem afterwards_some {r : CachedMutation} {m : CachedNode} (h : afterwards r = some m) :
    r.1 ≠ .error .panic ∧ r.2 = m := by
  unfold afterwards at h
  split at h
  · cases h
  · next res n hne =>
      refine ⟨?_, Option.some.inj h⟩
      intro hp
      exact hne hp

theorem Sound.afterwards {n m : CachedNode} {r : CachedMutation} (hn : Coherent keccak n)
    (hr : Sound (Coherent keccak) n r) (h : afterwards r = some m) : Coherent keccak m := by
  obtain ⟨hne, rfl⟩ := afterwards_some h
  rcases hr with hp | ⟨-, hgood⟩ | ⟨-, hsame⟩
  · exact absurd hp hne
  · exact hgood
  · rw [hsame]
    exact hn

theorem Coherent.call {n m : CachedNode} (hn : Coherent keccak n) {c : Call} (h : n.call keccak c = some m) :
    Coherent keccak m := by
  cases c with
  | insert key value =>
      refine Sound.afterwards hn ?_ h
      unfold CachedNode.insert
      split
      · exact .inl rfl
      · exact hn.insertInternal _ _
  | insertRlp key encoded => exact Sound.afterwards hn (hn.insertInternal _ _) h
  | delete key => exact Sound.afterwards hn (hn.deleteInternal _) h
  | clear => exact Option.some.inj h ▸ CoherentBelow.invalidate (n := .null n.cache) trivial
  | reference => exact Option.some.inj h ▸ hn.reference.2.2
  | hash => exact Option.some.inj h ▸ hn.hashed
  | clone => exact Option.some.inj h ▸ hn
  | serde => exact Option.some.inj h ▸ coherent_fresh _

theorem Coherent.calls {n m : CachedNode} (hn : Coherent keccak n) {cs : List Call}
    (h : cs.foldlM (CachedNode.call keccak) n = some m) : Coherent keccak m := by
  induction cs generalizing n with
  | nil => exact Option.some.inj h ▸ hn
  | cons c cs ih =>
      obtain ⟨k, hk, hrest⟩ := Option.bind_eq_some_iff.mp h
      exact ih (hn.call hk) hrest

/-- The same call on a node without caches. -/
def plainCall (n : MptNode) : Call → Option MptNode
  | .insert key value => plainAfterwards (n.insert key value)
  | .insertRlp key encoded => plainAfterwards (n.insertRlp key encoded)
  | .delete key => plainAfterwards (n.delete key)
  | .clear => some n.clear
  | .reference | .hash | .clone | .serde => some n
where
  plainAfterwards : Mutation → Option MptNode
    | (.error .panic, _) => none
    | (_, n) => some n

theorem afterwards_erase (r : CachedMutation) :
    (afterwards r).map erase = plainCall.plainAfterwards (CachedMutation.erase r) := by
  obtain ⟨res, n⟩ := r
  cases res with
  | ok b => rfl
  | error f => cases f <;> rfl

/-- Where the caches are right, a call does to a node what it does without caches. -/
theorem Coherent.call_erase {n : CachedNode} (hn : Coherent keccak n) (c : Call) :
    (n.call keccak c).map erase = plainCall n.erase c := by
  cases c with
  | insert key value =>
      rw [CachedNode.call, afterwards_erase, plainCall]
      congr 1
      unfold CachedNode.insert MptNode.insert
      split
      · rfl
      · exact insertInternal_erase ..
  | insertRlp key encoded =>
      rw [CachedNode.call, afterwards_erase, CachedNode.insertRlp, insertInternal_erase]
      rfl
  | delete key =>
      rw [CachedNode.call, afterwards_erase, CachedNode.delete, deleteInternal_erase]
      rfl
  | clear => rfl
  | clone => rfl
  | serde => exact congrArg some (erase_fresh n.erase)
  | reference => exact congrArg some hn.reference.2.1
  | hash =>
      cases n with
      | null => rfl
      | branch | leaf | extension | digest => exact congrArg some hn.reference.2.1

/-- A run of calls on a node with right caches is a run on the node without caches. -/
theorem Coherent.calls_erase {n : CachedNode} (hn : Coherent keccak n) (cs : List Call) :
    (cs.foldlM (CachedNode.call keccak) n).map erase = cs.foldlM plainCall n.erase := by
  induction cs generalizing n with
  | nil => rfl
  | cons c cs ih =>
      have hstep := hn.call_erase c
      rw [List.foldlM_cons, List.foldlM_cons, ← hstep]
      cases hk : n.call keccak c with
      | none => rfl
      | some k => exact ih (hn.call hk)

/-- In every trie that the program can come by, each cache is empty or right, so the hash
is the one that is computed from scratch. -/
theorem Obtained.never_stale {n : CachedNode} (h : Obtained keccak n) :
    Coherent keccak n ∧ n.hash keccak = n.erase.hash keccak := by
  have hc : Coherent keccak n := by
    induction h with
    | default => exact coherent_fresh .null
    | @decode bytes n hn =>
        rw [CachedNode.decode] at hn
        cases hd : MptNode.decode bytes with
        | error f =>
            rw [hd] at hn
            cases hn
        | ok m =>
            rw [hd] at hn
            exact Except.ok.inj hn ▸ coherent_fresh m
    | mptFromProof _ hn ih => exact mptFromProof_coherent ih hn
    | resolveNodes _ _ hres ihroot ihstore => exact hres.coherent ihstore ihroot
    | calls _ hcs ih => exact ih.calls hcs
  exact ⟨hc, hc.hash⟩

section Sample

/-- Two insertions with the hash taken between them, and a deletion that moves the leaf
whose reference the hash has cached. -/
theorem never_stale_run : ∃ n, [Call.insert [0x00] [1], .hash, .insert [0x10] (List.replicate 40 2), .reference,
      .delete [0x00], .clone, .insert [0x10] (List.replicate 40 2), .hash].foldlM
        (call twoKindsKeccak) (.null none) = some n ∧
    Coherent twoKindsKeccak n ∧ n.hash twoKindsKeccak = n.erase.hash twoKindsKeccak := by
  obtain ⟨n, hn⟩ := Option.isSome_iff_exists.mp (show ([Call.insert [0x00] [1], .hash,
    .insert [0x10] (List.replicate 40 2), .reference, .delete [0x00], .clone,
    .insert [0x10] (List.replicate 40 2), .hash].foldlM (call twoKindsKeccak) (.null none)).isSome from
      rfl)
  exact ⟨n, hn, (Obtained.calls .default hn).never_stale⟩

end Sample

end CachedNode
end RethProcessor
