import CinderX.Foundation.Basic

/-!
# Subscription tables

A table from topics to keys to the subscribers of a key.  A tidy table keeps no
topic without keys, no key without subscribers and no subscriber twice.
-/

namespace CinderX.Foundation

variable {δ κ γ : Type} [DecidableEq δ] [DecidableEq κ]

abbrev Subscriptions (δ κ γ : Type) := AList fun _ : δ => AList fun _ : κ => List γ

namespace Subscriptions

def ofKeys (keys : AList fun _ : κ => List γ) (k : κ) : List γ := (keys.lookup k).getD []

def subscribers (t : Subscriptions δ κ γ) (d : δ) (k : κ) : List γ :=
  ofKeys ((t.lookup d).getD ∅) k

@[simp]
theorem ofKeys_empty (k : κ) : ofKeys (∅ : AList fun _ : κ => List γ) k = [] := rfl

@[simp]
theorem ofKeys_insert_self (keys : AList fun _ : κ => List γ) (k : κ) (l : List γ) :
    ofKeys (keys.insert k l) k = l := by
  rw [ofKeys, AList.lookup_insert, Option.getD_some]

variable {k : κ}

theorem ofKeys_insert_ne (keys : AList fun _ : κ => List γ) {k' : κ} (hk : k' ≠ k) (l : List γ) :
    ofKeys (keys.insert k l) k' = ofKeys keys k' := by
  rw [ofKeys, AList.lookup_insert_ne hk, ofKeys]

@[simp]
theorem ofKeys_erase_self (keys : AList fun _ : κ => List γ) (k : κ) :
    ofKeys (keys.erase k) k = [] := by
  rw [ofKeys, AList.lookup_erase, Option.getD_none]

theorem ofKeys_erase_ne (keys : AList fun _ : κ => List γ) {k' : κ} (hk : k' ≠ k) :
    ofKeys (keys.erase k) k' = ofKeys keys k' := by
  rw [ofKeys, AList.lookup_erase_ne hk, ofKeys]

variable {keys : AList fun _ : κ => List γ}

theorem ofKeys_of_entries_eq_nil (h : keys.entries = []) (k : κ) : ofKeys keys k = [] := by
  rw [AList.ext (t := ∅) h, ofKeys_empty]

variable {t : Subscriptions δ κ γ} {d : δ}

theorem subscribers_of_lookup (h : t.lookup d = some keys) (k : κ) :
    t.subscribers d k = ofKeys keys k := by
  rw [subscribers, h, Option.getD_some]

@[simp]
theorem subscribers_insert_self (t : Subscriptions δ κ γ) (d : δ)
    (keys : AList fun _ : κ => List γ) (k : κ) :
    Subscriptions.subscribers (t.insert d keys) d k = ofKeys keys k := by
  rw [subscribers, AList.lookup_insert, Option.getD_some]

theorem subscribers_insert_ne (t : Subscriptions δ κ γ) {d' : δ} (hd : d' ≠ d)
    (keys : AList fun _ : κ => List γ) (k : κ) :
    Subscriptions.subscribers (t.insert d keys) d' k = t.subscribers d' k := by
  rw [subscribers, AList.lookup_insert_ne hd, subscribers]

@[simp]
theorem subscribers_erase_self (t : Subscriptions δ κ γ) (d : δ) (k : κ) :
    Subscriptions.subscribers (t.erase d) d k = [] := by
  rw [subscribers, AList.lookup_erase, Option.getD_none, ofKeys_empty]

theorem subscribers_erase_ne (t : Subscriptions δ κ γ) {d' : δ} (hd : d' ≠ d) (k : κ) :
    Subscriptions.subscribers (t.erase d) d' k = t.subscribers d' k := by
  rw [subscribers, AList.lookup_erase_ne hd, subscribers]

variable {c : γ}

theorem mem_ofKeys_iff :
    c ∈ ofKeys keys k ↔ ∃ l, keys.lookup k = some l ∧ c ∈ l := by
  cases h : keys.lookup k with
  | none => simp [ofKeys, h]
  | some l => simp [ofKeys, h]

theorem mem_subscribers_iff :
    c ∈ t.subscribers d k ↔ ∃ keys, t.lookup d = some keys ∧ c ∈ ofKeys keys k := by
  cases h : t.lookup d with
  | none => simp [subscribers, h]
  | some keys => simp [subscribers, h]

def all (keys : AList fun _ : κ => List γ) : List γ := keys.entries.flatMap Sigma.snd

theorem mem_all :
    c ∈ all keys ↔ ∃ k, c ∈ ofKeys keys k := by
  simp only [all, List.mem_flatMap, mem_ofKeys_iff]
  constructor
  · rintro ⟨⟨k, l⟩, hentry, hc⟩
    exact ⟨k, l, AList.mem_lookup_iff.mpr hentry, hc⟩
  · rintro ⟨k, l, hlookup, hc⟩
    exact ⟨⟨k, l⟩, AList.mem_lookup_iff.mp hlookup, hc⟩

def TidyKeys (keys : AList fun _ : κ => List γ) : Prop :=
  ∀ k l, keys.lookup k = some l → l ≠ [] ∧ l.Nodup

def Tidy (t : Subscriptions δ κ γ) : Prop :=
  ∀ d keys, t.lookup d = some keys → keys.entries ≠ [] ∧ TidyKeys keys

theorem TidyKeys.nodup_all (h : TidyKeys keys)
    (hkey : ∀ k k' c, c ∈ ofKeys keys k → c ∈ ofKeys keys k' → k = k') : (all keys).Nodup := by
  rw [all, List.nodup_flatMap]
  constructor
  · intro entry hentry
    exact (h entry.1 entry.2 (AList.mem_lookup_iff.mpr hentry)).2
  · refine (List.nodupKeys_iff_pairwise.mp keys.nodupKeys).imp_of_mem ?_
    intro entry entry' hentry hentry' hne
    refine List.disjoint_left.mpr fun c hc hc' => hne ?_
    exact hkey _ _ c (mem_ofKeys_iff.mpr ⟨_, AList.mem_lookup_iff.mpr hentry, hc⟩)
      (mem_ofKeys_iff.mpr ⟨_, AList.mem_lookup_iff.mpr hentry', hc'⟩)

theorem TidyKeys.insert (h : TidyKeys keys) {l : List γ} (hl : l ≠ []) (hnd : l.Nodup) :
    TidyKeys (keys.insert k l) := by
  intro k' l' hlookup
  by_cases hk : k' = k
  · subst hk
    rw [AList.lookup_insert] at hlookup
    cases hlookup
    exact ⟨hl, hnd⟩
  · rw [AList.lookup_insert_ne hk] at hlookup
    exact h k' l' hlookup

theorem TidyKeys.erase (h : TidyKeys keys) (k : κ) :
    TidyKeys (keys.erase k) := by
  intro k' l' hlookup
  by_cases hk : k' = k
  · subst hk
    rw [AList.lookup_erase] at hlookup
    cases hlookup
  · rw [AList.lookup_erase_ne hk] at hlookup
    exact h k' l' hlookup

theorem Tidy.insert (h : t.Tidy) (hne : keys.entries ≠ []) (hkeys : TidyKeys keys) :
    Subscriptions.Tidy (t.insert d keys) := by
  intro d' keys' hlookup
  by_cases hd : d' = d
  · subst hd
    rw [AList.lookup_insert] at hlookup
    cases hlookup
    exact ⟨hne, hkeys⟩
  · rw [AList.lookup_insert_ne hd] at hlookup
    exact h d' keys' hlookup

theorem Tidy.erase (h : t.Tidy) (d : δ) :
    Subscriptions.Tidy (t.erase d) := by
  intro d' keys' hlookup
  by_cases hd : d' = d
  · subst hd
    rw [AList.lookup_erase] at hlookup
    cases hlookup
  · rw [AList.lookup_erase_ne hd] at hlookup
    exact h d' keys' hlookup

theorem Tidy.empty : (∅ : Subscriptions δ κ γ).Tidy := by
  intro d keys h
  rw [AList.lookup_empty] at h
  cases h

theorem Tidy.nodup_subscribers (h : t.Tidy) (d : δ) (k : κ) :
    (t.subscribers d k).Nodup := by
  unfold subscribers ofKeys
  cases hd : t.lookup d with
  | none => exact List.nodup_nil
  | some keys =>
    cases hk : keys.lookup k with
    | none => simp [hk]
    | some l => simpa [hk] using ((h d keys hd).2 k l hk).2

theorem Tidy.getD (h : t.Tidy) (d : δ) :
    TidyKeys ((t.lookup d).getD ∅) := by
  cases hd : t.lookup d with
  | none =>
    intro k l hk
    rw [Option.getD_none, AList.lookup_empty] at hk
    cases hk
  | some keys => exact (h d keys hd).2

end Subscriptions

end CinderX.Foundation
