import Mathlib.Tactic.Common

/-!
# Protocol parameters

The gas prices of `params/protocol_params.go` that the virtual machine and the state transition use.
-/

namespace Virbicoin.Params

def callValueTransferGas : Nat := 9000
def callNewAccountGas : Nat := 25000
def txGas : Nat := 21000
def txGasContractCreation : Nat := 53000
def txDataZeroGas : Nat := 4
def quadCoeffDiv : Nat := 512
def logDataGas : Nat := 8
def callStipend : Nat := 2300
def sha3Gas : Nat := 30
def sha3WordGas : Nat := 6

def sstoreSetGas : Nat := 20000
def sstoreResetGas : Nat := 5000
def sstoreClearGas : Nat := 5000
def sstoreRefundGas : Nat := 15000

def netSstoreNoopGas : Nat := 200
def netSstoreInitGas : Nat := 20000
def netSstoreCleanGas : Nat := 5000
def netSstoreDirtyGas : Nat := 200
def netSstoreClearRefund : Nat := 15000
def netSstoreResetRefund : Nat := 4800
def netSstoreResetClearRefund : Nat := 19800

def sstoreSentryGasEIP2200 : Nat := 2300
def sstoreSetGasEIP2200 : Nat := 20000
def sstoreResetGasEIP2200 : Nat := 5000
def sstoreClearsScheduleRefundEIP2200 : Nat := 15000

def jumpdestGas : Nat := 1
def createDataGas : Nat := 200
def callCreateDepth : Nat := 1024
def expGas : Nat := 10
def logGas : Nat := 375
def copyGas : Nat := 3
def stackLimit : Nat := 1024
def logTopicGas : Nat := 375
def createGas : Nat := 32000
def create2Gas : Nat := 32000
def selfdestructRefundGas : Nat := 24000
def memoryGas : Nat := 3
def txDataNonZeroGasFrontier : Nat := 68
def txDataNonZeroGasEIP2028 : Nat := 16

def callGasFrontier : Nat := 40
def callGasEIP150 : Nat := 700
def balanceGasFrontier : Nat := 20
def balanceGasEIP150 : Nat := 400
def balanceGasEIP1884 : Nat := 700
def extcodeSizeGasFrontier : Nat := 20
def extcodeSizeGasEIP150 : Nat := 700
def sloadGasFrontier : Nat := 50
def sloadGasEIP150 : Nat := 200
def sloadGasEIP1884 : Nat := 800
def sloadGasEIP2200 : Nat := 800
def extcodeHashGasConstantinople : Nat := 400
def extcodeHashGasEIP1884 : Nat := 700
def selfdestructGasEIP150 : Nat := 5000
def expByteFrontier : Nat := 10
def expByteEIP158 : Nat := 50
def extcodeCopyBaseFrontier : Nat := 20
def extcodeCopyBaseEIP150 : Nat := 700
def createBySelfdestructGas : Nat := 25000
def maxCodeSize : Nat := 24576

def identityBaseGas : Nat := 15
def identityPerWordGas : Nat := 3

end Virbicoin.Params
