namespace Xv6

@[simp] def maxOpBlocks : Nat := 10

@[simp] def logSize : Nat := maxOpBlocks * 3

def nbuf : Nat := maxOpBlocks * 3

@[simp] def fsSize : Nat := 2000

@[simp] def bsize : Nat := 512

@[simp] def pipeSize : Nat := 512

@[simp] def ninode : Nat := 50

@[simp] def nfile : Nat := 100

@[simp] def nofile : Nat := 16

@[simp] def nproc : Nat := 64

@[simp] def ndev : Int16 := 10

@[simp] def console : Int16 := 1

@[simp] def rootDev : Nat := 1

@[simp] def rootIno : Nat := 1

@[simp] def ndirect : Nat := 12

@[simp] def nindirect : Nat := bsize / 4

@[simp] def maxFile : Nat := ndirect + nindirect

@[simp] def dinodeSize : Nat := 64

@[simp] def ipb : Nat := bsize / dinodeSize

@[simp] def bpb : Nat := bsize * 8

@[simp] def dirSiz : Nat := 14

@[simp] def direntSize : Nat := 16

@[simp] def tDir : Int16 := 1

@[simp] def tFile : Int16 := 2

@[simp] def tDev : Int16 := 3

end Xv6
