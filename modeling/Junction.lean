import Junction.Base.Arch
import Junction.Base.Memory
import Junction.Base.Errno
import Junction.Kernel.Elf
import Junction.Kernel.ElfRead
import Junction.Kernel.Exec
import Junction.Kernel.StackDecode
import Junction.Kernel.Mm
import Junction.Fs.Contents
import Junction.Fs.Memfs.Backing
import Junction.Fs.Memfs.Dir
import Junction.Fs.Memfs.DirInit
import Junction.Fs.Memfs.InodeLock
import Junction.Fs.Memfs.WriteBytes
import Junction.Syscall.Dispatch
import Junction.Syscall.Strace
import Junction.Net.Listener
