import Mathlib.Data.List.Basic
import Mathlib.Tactic.Common

namespace MuOS.Net.Wire

abbrev Byte := BitVec 8

def byteAt (bs : List Byte) (i : Nat) : Byte := bs.getD i 0#8

def be16 (bs : List Byte) : BitVec 16 := byteAt bs 0 ++ byteAt bs 1

def put16be (v : BitVec 16) : List Byte := [v.extractLsb' 8 8, v.extractLsb' 0 8]

def be32 (bs : List Byte) : BitVec 32 := byteAt bs 0 ++ byteAt bs 1 ++ byteAt bs 2 ++ byteAt bs 3

def put32be (v : BitVec 32) : List Byte :=
  [v.extractLsb' 24 8, v.extractLsb' 16 8, v.extractLsb' 8 8, v.extractLsb' 0 8]

/-- Addresses are copied without a change of order. -/
def addrOf (bs : List Byte) : BitVec 32 := byteAt bs 3 ++ byteAt bs 2 ++ byteAt bs 1 ++ byteAt bs 0

def addrBytes (v : BitVec 32) : List Byte :=
  [v.extractLsb' 0 8, v.extractLsb' 8 8, v.extractLsb' 16 8, v.extractLsb' 24 8]

def addWords (sum : BitVec 32) : List Byte → BitVec 32
  | a :: b :: rest => addWords (sum + (a ++ b : BitVec 16).setWidth 32) rest
  | [a] => sum + (a ++ 0#8 : BitVec 16).setWidth 32
  | [] => sum

def foldCarry (sum : BitVec 32) : BitVec 32 := (sum &&& 0xFFFF#32) + (sum >>> 16)

-- after two rounds nothing is left above the low half, so the loop of the source ends
def netCksum (data : List Byte) (sum0 : BitVec 32) : BitVec 16 :=
  ~~~ (foldCarry (foldCarry (addWords sum0 data))).setWidth 16

def tcpCksum (src dst : BitVec 32) (seg : List Byte) : BitVec 16 :=
  netCksum seg (addWords 0#32
    (addrBytes src ++ addrBytes dst ++ [0#8, 6#8] ++ put16be (BitVec.ofNat 16 seg.length)))

def ipHeader (ident : BitVec 16) (proto : Byte) (src dst : BitVec 32) (tot : Nat) : List Byte :=
  let front := [0x45#8, 0#8] ++ put16be (BitVec.ofNat 16 tot) ++
    put16be ident ++ [0#8, 0#8, 64#8, proto]
  let back := addrBytes src ++ addrBytes dst
  front ++ put16be (netCksum (front ++ [0#8, 0#8] ++ back) 0#32) ++ back

/-- What `tcp_emit` builds in `tcp_seg`. -/
def tcpSegment (src dst : BitVec 32) (lport rport : BitVec 16) (seq ack : BitVec 32) (flags : Byte)
    (data : List Byte) : List Byte :=
  let front :=
    put16be lport ++ put16be rport ++ put32be seq ++ put32be ack ++ [0x50#8, flags] ++ put16be 2048#16
  front ++ put16be (tcpCksum src dst (front ++ [0#8, 0#8, 0#8, 0#8] ++ data)) ++ [0#8, 0#8] ++ data

def ethHeader (dst src : List Byte) (kind : BitVec 16) : List Byte := dst ++ src ++ put16be kind

def broadcastMac : List Byte := List.replicate 6 0xFF#8

def fFIN : Byte := 0x01#8
def fSYN : Byte := 0x02#8
def fRST : Byte := 0x04#8
def fPSH : Byte := 0x08#8
def fACK : Byte := 0x10#8

def flagged (flags bit : Byte) : Bool := flags &&& bit != 0#8

end MuOS.Net.Wire
