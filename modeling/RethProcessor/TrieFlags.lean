import RethProcessor.TrieBinding

/-! What the decoder accepts, on which views it panics, and what a lookup can rely on in the
nodes that it returns. -/
namespace RethProcessor
open Paths Rlp Calls

/-- Every path begins with the flag of its node's kind, and no branch has an empty child. -/
inductive WellFlagged : MptNode → Prop
  | null : WellFlagged .null
  | branch {children : Nibble → Option MptNode} : (∀ i, children i ≠ some .null) →
      (∀ i c, children i = some c → WellFlagged c) → WellFlagged (.branch children)
  | leaf {path : Bytes} (value : Bytes) : leafFlag path = true → WellFlagged (.leaf path value)
  | extension {path : Bytes} {child : MptNode} : path ≠ [] → leafFlag path = false → WellFlagged child →
      WellFlagged (.extension path child)
  | digest (d : B256) : WellFlagged (.digest d)

/-- The views that are decoded to a node. -/
inductive AcceptedView : Bytes → Prop
  | blank {rlp : Bytes} : prototype rlp = .null ∨ prototype rlp = .data 0 → AcceptedView rlp
  | digest {rlp : Bytes} : prototype rlp = .data 32 → AcceptedView rlp
  | leaf {rlp path value : Bytes} : prototype rlp = .list 2 → valAt rlp 0 = .ok path →
      leafFlag path = true → valAt rlp 1 = .ok value → AcceptedView rlp
  | extension {rlp path item : Bytes} : prototype rlp = .list 2 → valAt rlp 0 = .ok path → path ≠ [] →
      leafFlag path = false → itemAt rlp 1 = .ok item → AcceptedView item → AcceptedView rlp
  | branch {rlp : Bytes} : prototype rlp = .list 17 →
      (∀ item ∈ (Rlp.items rlp).take 16, AcceptedView item) → valAt rlp 16 = .ok [] → AcceptedView rlp

/-- Decoding a view comes to a list of two items, the first of them an empty string. In a
branch it comes as far as every place before is accepted. -/
inductive ComesToEmptyPath : Bytes → Prop
  | here {rlp : Bytes} : prototype rlp = .list 2 → valAt rlp 0 = .ok [] → ComesToEmptyPath rlp
  | extension {rlp path item : Bytes} : prototype rlp = .list 2 → valAt rlp 0 = .ok path → path ≠ [] →
      leafFlag path = false → itemAt rlp 1 = .ok item → ComesToEmptyPath item → ComesToEmptyPath rlp
  | branch {rlp item : Bytes} {before after : List Bytes} : prototype rlp = .list 17 →
      (Rlp.items rlp).take 16 = before ++ item :: after → (∀ b ∈ before, AcceptedView b) →
      ComesToEmptyPath item → ComesToEmptyPath rlp

theorem leafFlag_ne_nil {path : Bytes} (h : leafFlag path = true) : path ≠ [] := by
  rintro rfl
  cases h

theorem prefixNibs_of_ne_nil {path : Bytes} (h : path ≠ []) : ∃ ns, prefixNibs path = .ok ns := by
  cases path with
  | nil => exact absurd rfl h
  | cons first tail => exact ⟨_, rfl⟩

theorem WellEncoded.wellFlagged {n : MptNode} (h : WellEncoded n) : WellFlagged n := by
  induction h with
  | null => exact .null
  | branch hnull _ ih => exact .branch hnull ih
  | leaf ns value => exact .leaf value (leafFlag_toEncodedPath ns true)
  | extension ns _ ih => exact .extension (toEncodedPath_ne_nil ns false) (leafFlag_toEncodedPath ns false) ih
  | digest d => exact .digest d

/-- A lookup in a node with flagged paths answers, or runs into a digest. -/
theorem WellFlagged.getInternal {n : MptNode} (h : WellFlagged n) (key : List Nibble) :
    (∃ o, n.getInternal key = .ok o) ∨ ∃ d, n.getInternal key = .error (notResolved d) := by
  induction h generalizing key with
  | null => exact .inl ⟨none, rfl⟩
  | digest d => exact .inr ⟨d, rfl⟩
  | leaf value hflag =>
      obtain ⟨ns, hns⟩ := prefixNibs_of_ne_nil (leafFlag_ne_nil hflag)
      exact .inl ⟨if ns = key then some value else none, by simp only [MptNode.getInternal, hns]⟩
  | @branch children _ _ ih =>
      cases key with
      | nil => exact .inl ⟨none, rfl⟩
      | cons i tail =>
          rw [getInternal_branch_cons]
          cases hc : children i with
          | none => exact .inl ⟨none, rfl⟩
          | some c => exact ih i c hc tail
  | @extension path child hne _ _ ih =>
      obtain ⟨ns, hns⟩ := prefixNibs_of_ne_nil hne
      by_cases hpre : ns <+: key
      · obtain ⟨tail, rfl⟩ := hpre
        simpa [MptNode.getInternal, hns] using ih tail
      · exact .inl ⟨none, by simp [MptNode.getInternal, hns, isPrefixOf?_eq_none hpre]⟩

theorem legacy_ok_inv {α : Type} {r : Except DecoderError α} {a : α} (h : legacy r = .ok a) : r = .ok a := by
  cases r with
  | ok b => exact congrArg Except.ok (Except.ok.inj h)
  | error e => cases h

theorem legacy_ne_panic {α : Type} (r : Except DecoderError α) : legacy r ≠ .error .panic := by
  cases r with
  | ok a => simp [legacy]
  | error e => simp [legacy]

theorem decodeView_blank {rlp : Bytes} (h : prototype rlp = .null ∨ prototype rlp = .data 0) (fuel : Nat) :
    MptNode.decodeView (fuel + 1) rlp = .ok .null := by
  rcases h with h | h
  · simp only [MptNode.decodeView, h]
  · simp only [MptNode.decodeView, h]

theorem decodeView_data {rlp : Bytes} (h : prototype rlp = .data 32) (fuel : Nat) :
    ∃ d, MptNode.decodeView (fuel + 1) rlp = .ok (.digest d) := by
  obtain ⟨value, hvalue, hlen⟩ := decodeValue_of_prototype h
  refine ⟨⟨value, hlen⟩, ?_⟩
  simp only [MptNode.decodeView, h, hvalue, legacy_ok]
  simp [bind, Except.bind, B256.fromSlice, hlen]

/-- A list of two items, by its path. -/
theorem decodeView_list_two {rlp : Bytes} (h : prototype rlp = .list 2) (fuel : Nat) :
    MptNode.decodeView (fuel + 1) rlp = (legacy (valAt rlp 0) >>= fun path =>
      if path = [] then .error .panic
      else if leafFlag path then .leaf path <$> legacy (valAt rlp 1)
      else legacy (itemAt rlp 1) >>= fun item => .extension path <$> MptNode.decodeView fuel item) := by
  simp only [MptNode.decodeView, h]
  cases valAt rlp 0 with
  | error e => rfl
  | ok path =>
      cases path with
      | nil => rfl
      | cons first tail =>
          have hflag : (2 : UInt8) <<< 4 = 0x20 := by decide
          by_cases hf : first &&& 0x20 = 0
          · simp [hf, hflag, leafFlag, bind, Except.bind]
          · simp [hf, hflag, leafFlag, bind, Except.bind]

theorem decodeView_list_branch {rlp : Bytes} (h : prototype rlp = .list 17) (fuel : Nat) :
    MptNode.decodeView (fuel + 1) rlp =
      (((Rlp.items rlp).take 16).mapM (decodeSlot (MptNode.decodeView fuel)) >>= fun nodes =>
        legacy (valAt rlp 16) >>= fun value =>
          if value.isEmpty then .branch <$> childArray nodes
          else .error (.err (.legacyRlp (.custom "branch node with value")))) := by
  simp only [MptNode.decodeView, h]

theorem childArray_of_length {nodes : List (Option MptNode)} (h : nodes.length = 16) :
    childArray nodes = .ok fun i => nodes.get (i.cast h.symm) := by
  simp only [childArray, h, ↓reduceDIte]

/-- The 16 items of the places of a branch. -/
theorem length_places {rlp : Bytes} (h : prototype rlp = .list 17) :
    ((Rlp.items rlp).take 16).length = 16 := by
  rw [List.length_take, (isData_of_prototype_list h).2]
  rfl

/-- A place of a branch is left empty, or is decoded. -/
theorem decodeSlot_cases (decode : Bytes → Except Failure MptNode) (item : Bytes) :
    ((prototype item = .null ∨ prototype item = .data 0) ∧ decodeSlot decode item = .ok none) ∨
      (¬ (prototype item = .null ∨ prototype item = .data 0) ∧ decodeSlot decode item = some <$> decode item) := by
  unfold decodeSlot
  split
  · next h => exact .inl ⟨.inl h, rfl⟩
  · next h => exact .inl ⟨.inr h, rfl⟩
  · next h₁ h₂ => exact .inr ⟨not_or.mpr ⟨h₁, h₂⟩, rfl⟩

theorem decodeSlot_ok {decode : Bytes → Except Failure MptNode} {item : Bytes} {n : MptNode}
    (h : decode item = .ok n) : ∃ o, decodeSlot decode item = .ok o := by
  rcases decodeSlot_cases decode item with ⟨-, hs⟩ | ⟨-, hs⟩
  · exact ⟨none, hs⟩
  · rw [h] at hs
    exact ⟨some n, hs⟩

theorem decodeSlot_some {decode : Bytes → Except Failure MptNode} {item : Bytes} {n : MptNode}
    (h : decodeSlot decode item = .ok (some n)) :
    ¬ (prototype item = .null ∨ prototype item = .data 0) ∧ decode item = .ok n := by
  rcases decodeSlot_cases decode item with ⟨-, hs⟩ | ⟨hkind, hs⟩
  · cases hs.symm.trans h
  · obtain ⟨m, hm, hmn⟩ := map_ok_inv (hs.symm.trans h)
    obtain rfl : m = n := Option.some.inj hmn
    exact ⟨hkind, hm⟩

/-- What stands at a place that is decoded is accepted. -/
theorem accepted_of_decodeSlot {decode : Bytes → Except Failure MptNode} {item : Bytes} {o : Option MptNode}
    (hdecode : ∀ n, decode item = .ok n → AcceptedView item) (h : decodeSlot decode item = .ok o) :
    AcceptedView item := by
  rcases decodeSlot_cases decode item with ⟨hblank, -⟩ | ⟨-, hs⟩
  · exact .blank hblank
  · obtain ⟨n, hn, -⟩ := map_ok_inv (hs.symm.trans h)
    exact hdecode n hn

/-- Views of all other kinds are refused. -/
theorem decodeView_kinds (rlp : Bytes) :
    (prototype rlp = .null ∨ prototype rlp = .data 0) ∨ prototype rlp = .data 32 ∨
      prototype rlp = .list 2 ∨ prototype rlp = .list 17 ∨
      ∀ fuel, MptNode.decodeView (fuel + 1) rlp = .error (.err (.legacyRlp .rlpIncorrectListLen)) := by
  by_cases hblank : prototype rlp = .null ∨ prototype rlp = .data 0
  · exact .inl hblank
  · by_cases hdata : prototype rlp = .data 32
    · exact .inr (.inl hdata)
    · by_cases htwo : prototype rlp = .list 2
      · exact .inr (.inr (.inl htwo))
      · by_cases hbranch : prototype rlp = .list 17
        · exact .inr (.inr (.inr (.inl hbranch)))
        · refine .inr (.inr (.inr (.inr ?_)))
          intro fuel
          rw [not_or] at hblank
          rw [MptNode.decodeView]
          split
          · next h => exact absurd h hblank.1
          · next h => exact absurd h hblank.2
          · next h => exact absurd h htwo
          · next h => exact absurd h hbranch
          · next h => exact absurd h hdata
          · rfl

/-- What is decoded is accepted, and has flagged paths. -/
theorem decodeView_ok {fuel : Nat} {rlp : Bytes} {n : MptNode} (h : MptNode.decodeView fuel rlp = .ok n) :
    AcceptedView rlp ∧ WellFlagged n ∧ (n = .null → prototype rlp = .null ∨ prototype rlp = .data 0) := by
  induction fuel generalizing rlp n with
  | zero => cases h
  | succ fuel ih =>
      rcases decodeView_kinds rlp with hp | hp | hp | hp | hp
      · rw [decodeView_blank hp, Except.ok.injEq] at h
        exact h ▸ ⟨.blank hp, .null, fun _ => hp⟩
      · obtain ⟨d, hd⟩ := decodeView_data hp fuel
        rw [hd, Except.ok.injEq] at h
        exact h ▸ ⟨.digest hp, .digest d, fun h => (nomatch h)⟩
      · rw [decodeView_list_two hp] at h
        obtain ⟨path, hpath, h⟩ := bind_ok_inv h
        have hpath := legacy_ok_inv hpath
        split at h
        · cases h
        · next hne =>
            split at h
            · next hflag =>
                obtain ⟨value, hvalue, rfl⟩ := map_ok_inv h
                exact ⟨.leaf hp hpath hflag (legacy_ok_inv hvalue), .leaf value hflag, fun h => (nomatch h)⟩
            · next hflag =>
                rw [Bool.not_eq_true] at hflag
                obtain ⟨item, hitem, h⟩ := bind_ok_inv h
                obtain ⟨child, hc, rfl⟩ := map_ok_inv h
                obtain ⟨hacc, hwell, -⟩ := ih hc
                exact ⟨.extension hp hpath hne hflag (legacy_ok_inv hitem) hacc, .extension hne hflag hwell,
                  fun h => (nomatch h)⟩
      · rw [decodeView_list_branch hp] at h
        obtain ⟨nodes, hnodes, h⟩ := bind_ok_inv h
        obtain ⟨value, hvalue, h⟩ := bind_ok_inv h
        obtain ⟨hlen, hfrom, hall⟩ := mapM_ok_inv hnodes
        have hvalue := legacy_ok_inv hvalue
        split at h
        · next hempty =>
            rw [List.isEmpty_iff.mp hempty] at hvalue
            rw [childArray_of_length (hlen.trans (length_places hp))] at h
            cases h
            have hslot {o : Option MptNode} (ho : o ∈ nodes) {c : MptNode} (hc : o = some c) :
                WellFlagged c ∧ c ≠ .null := by
              obtain ⟨item, -, hitem⟩ := hfrom o ho
              obtain ⟨hkind, hdecode⟩ := decodeSlot_some (hc ▸ hitem)
              obtain ⟨-, hwell, hnull⟩ := ih hdecode
              exact ⟨hwell, fun h => hkind (hnull h)⟩
            refine ⟨.branch hp ?_ hvalue, .branch ?_ ?_, fun h => (nomatch h)⟩
            · intro item hitem
              obtain ⟨o, -, ho⟩ := hall item hitem
              exact accepted_of_decodeSlot (fun n hn => (ih hn).1) ho
            · intro i hi
              exact (hslot (List.get_mem _ _) hi).2 rfl
            · intro i c hi
              exact (hslot (List.get_mem _ _) hi).1
        · cases h
      · rw [hp] at h
        cases h

/-- Enough fuel for a list is enough for its items. -/
theorem item_fuel {rlp item : Bytes} {n fuel : Nat} (hp : prototype rlp = .list n)
    (hitem : item ∈ Rlp.items rlp) (hfuel : rlp.length < fuel + 1) : item.length < fuel := by
  have := items_length_lt (isData_of_prototype_list hp).1 hitem
  omega

theorem mem_items {rlp item : Bytes} {i : Nat} (h : itemAt rlp i = .ok item) : item ∈ Rlp.items rlp :=
  List.mem_of_getElem? (mem_items_of_itemAt h)

/-- AcceptedView views are decoded. -/
theorem AcceptedView.decodeView {rlp : Bytes} (h : AcceptedView rlp) {fuel : Nat} (hfuel : rlp.length < fuel) :
    ∃ n, MptNode.decodeView fuel rlp = .ok n := by
  induction h generalizing fuel with
  | @blank rlp hp =>
      obtain ⟨fuel, rfl⟩ : ∃ f, fuel = f + 1 := ⟨fuel - 1, by omega⟩
      exact ⟨_, decodeView_blank hp fuel⟩
  | @digest rlp hp =>
      obtain ⟨fuel, rfl⟩ : ∃ f, fuel = f + 1 := ⟨fuel - 1, by omega⟩
      obtain ⟨d, hd⟩ := decodeView_data hp fuel
      exact ⟨_, hd⟩
  | @leaf rlp path value hp hpath hflag hvalue =>
      obtain ⟨fuel, rfl⟩ : ∃ f, fuel = f + 1 := ⟨fuel - 1, by omega⟩
      refine ⟨.leaf path value, ?_⟩
      rw [decodeView_list_two hp, hpath, hvalue, legacy_ok]
      simp only [bind, Except.bind, if_neg (leafFlag_ne_nil hflag), hflag, ↓reduceIte]
      rfl
  | @extension rlp path item hp hpath hne hflag hitem _ ih =>
      obtain ⟨fuel, rfl⟩ : ∃ f, fuel = f + 1 := ⟨fuel - 1, by omega⟩
      obtain ⟨child, hc⟩ := ih (item_fuel hp (mem_items hitem) hfuel)
      refine ⟨.extension path child, ?_⟩
      rw [decodeView_list_two hp, hpath, hitem, legacy_ok]
      simp only [bind, Except.bind, if_neg hne, hflag, Bool.false_eq_true, ↓reduceIte, legacy_ok, hc]
      rfl
  | @branch rlp hp _ hvalue ih =>
      obtain ⟨fuel, rfl⟩ : ∃ f, fuel = f + 1 := ⟨fuel - 1, by omega⟩
      obtain ⟨nodes, hnodes⟩ : ∃ nodes,
          ((Rlp.items rlp).take 16).mapM (decodeSlot (MptNode.decodeView fuel)) = .ok nodes := by
        apply mapM_exists
        intro item hitem
        obtain ⟨n, hn⟩ := ih item hitem (item_fuel hp (List.mem_of_mem_take hitem) hfuel)
        exact decodeSlot_ok hn
      have hlen := (mapM_ok_inv hnodes).1.trans (length_places hp)
      refine ⟨.branch fun i => nodes.get (i.cast hlen.symm), ?_⟩
      rw [decodeView_list_branch hp, hnodes, hvalue]
      simp only [bind, Except.bind, legacy_ok, List.isEmpty_nil, ↓reduceIte, childArray_of_length hlen]
      rfl

/-- A view that comes to an empty path makes the decoder panic. -/
theorem ComesToEmptyPath.decodeView {rlp : Bytes} (h : ComesToEmptyPath rlp) {fuel : Nat}
    (hfuel : rlp.length < fuel) : MptNode.decodeView fuel rlp = .error .panic := by
  induction h generalizing fuel with
  | @here rlp hp hpath =>
      obtain ⟨fuel, rfl⟩ : ∃ f, fuel = f + 1 := ⟨fuel - 1, by omega⟩
      rw [decodeView_list_two hp, hpath]
      rfl
  | @extension rlp path item hp hpath hne hflag hitem _ ih =>
      obtain ⟨fuel, rfl⟩ : ∃ f, fuel = f + 1 := ⟨fuel - 1, by omega⟩
      have hc := ih (item_fuel hp (mem_items hitem) hfuel)
      rw [decodeView_list_two hp, hpath, hitem, legacy_ok]
      simp only [bind, Except.bind, if_neg hne, hflag, Bool.false_eq_true, ↓reduceIte, legacy_ok, hc]
      rfl
  | @branch rlp item before after hp hplaces hbefore hitem ih =>
      obtain ⟨fuel, rfl⟩ : ∃ f, fuel = f + 1 := ⟨fuel - 1, by omega⟩
      have hin {b : Bytes} (hb : b ∈ before ++ item :: after) : b.length < fuel :=
        item_fuel hp (List.mem_of_mem_take (hplaces ▸ hb)) hfuel
      have hpanic := ih (hin (by simp))
      have hnodes : ((Rlp.items rlp).take 16).mapM (decodeSlot (MptNode.decodeView fuel)) = .error .panic := by
        refine mapM_error_iff.mpr ⟨before, item, after, hplaces, ?_, ?_⟩
        · intro b hb
          obtain ⟨n, hn⟩ := (hbefore b hb).decodeView (hin (List.mem_append_left _ hb))
          exact decodeSlot_ok hn
        · rcases decodeSlot_cases (MptNode.decodeView fuel) item with ⟨hblank, -⟩ | ⟨-, hs⟩
          · obtain ⟨fuel, rfl⟩ : ∃ f, fuel = f + 1 := ⟨fuel - 1, by have := hin (b := item) (by simp); omega⟩
            rw [decodeView_blank hblank] at hpanic
            cases hpanic
          · rw [hs, hpanic]
            rfl
      rw [decodeView_list_branch hp, hnodes]
      rfl

/-- The decoder panics on no other view. -/
theorem decodeView_panic {fuel : Nat} {rlp : Bytes} (h : MptNode.decodeView fuel rlp = .error .panic)
    (hfuel : rlp.length < fuel) : ComesToEmptyPath rlp := by
  induction fuel generalizing rlp with
  | zero => omega
  | succ fuel ih =>
      rcases decodeView_kinds rlp with hp | hp | hp | hp | hp
      · rw [decodeView_blank hp] at h
        cases h
      · obtain ⟨d, hd⟩ := decodeView_data hp fuel
        rw [hd] at h
        cases h
      · rw [decodeView_list_two hp] at h
        rcases bind_error_inv h with h | ⟨path, hpath, h⟩
        · exact absurd h (legacy_ne_panic _)
        · have hpath := legacy_ok_inv hpath
          split at h
          · next hnil => exact .here hp (hnil ▸ hpath)
          · next hne =>
              split at h
              · exact absurd (map_error_inv h) (legacy_ne_panic _)
              · next hflag =>
                  rw [Bool.not_eq_true] at hflag
                  rcases bind_error_inv h with h | ⟨item, hitem, h⟩
                  · exact absurd h (legacy_ne_panic _)
                  · have hitem := legacy_ok_inv hitem
                    exact .extension hp hpath hne hflag hitem
                      (ih (map_error_inv h) (item_fuel hp (mem_items hitem) hfuel))
      · rw [decodeView_list_branch hp] at h
        rcases bind_error_inv h with h | ⟨nodes, hnodes, h⟩
        · obtain ⟨before, item, after, hplaces, hbefore, hitem⟩ := mapM_error_iff.mp h
          have hin : item ∈ Rlp.items rlp := List.mem_of_mem_take (hplaces ▸ by simp : item ∈ (Rlp.items rlp).take 16)
          refine .branch hp hplaces ?_ ?_
          · intro b hb
            obtain ⟨o, ho⟩ := hbefore b hb
            exact accepted_of_decodeSlot (fun n hn => (decodeView_ok hn).1) ho
          · rcases decodeSlot_cases (MptNode.decodeView fuel) item with ⟨-, hs⟩ | ⟨-, hs⟩
            · rw [hs] at hitem
              cases hitem
            · rw [hs] at hitem
              exact ih (map_error_inv hitem) (item_fuel hp hin hfuel)
        · rcases bind_error_inv h with h | ⟨value, hvalue, h⟩
          · exact absurd h (legacy_ne_panic _)
          · split at h
            · rw [childArray_of_length ((mapM_ok_inv hnodes).1.trans (length_places hp))] at h
              cases h
            · cases h
      · rw [hp] at h
        cases h

theorem decode_wellFlagged {bytes : Bytes} {n : MptNode} (h : MptNode.decode bytes = .ok n) :
    WellFlagged n := (decodeView_ok h).2.1

/-- Decoding does not panic, and no lookup in what it returns does, exactly when it comes to
no list of two items that begins with an empty string. -/
theorem decode_total_iff (bytes : Bytes) :
    (MptNode.decode bytes ≠ .error .panic ∧ ∀ n, MptNode.decode bytes = .ok n → ∀ key,
        (∃ o, n.get key = .ok o) ∨ ∃ d, n.get key = .error (notResolved d)) ↔
      ¬ ComesToEmptyPath bytes := by
  constructor
  · rintro ⟨hpanic, -⟩ h
    exact hpanic (h.decodeView (Nat.lt_succ_self _))
  · intro h
    refine ⟨fun hpanic => h (decodeView_panic hpanic (Nat.lt_succ_self _)), ?_⟩
    intro n hn key
    exact (decode_wellFlagged hn).getInternal (toNibs key)

/-- A list of two empty strings. -/
theorem decode_empty_path : MptNode.decode [0xc2, 0x80, 0x80] = .error .panic := rfl

end RethProcessor
